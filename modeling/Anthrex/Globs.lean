import Mathlib.Data.List.DropRight
import Mathlib.Data.String.Basic

/-!
# Ownership globs

The `owns` globs of a task (`run/globs.rs`). Two notions meet here:

* intersection (`intersects`, `anyIntersect`, `globModule`) is a syntactic test on a
  glob's literal prefix, its components before the first one with a metacharacter;
* matching (`OwnsMatcher`) decides whether a path falls under a list of globs, through
  the `globset` library, of which a `Globset` is the part used.
-/

namespace Anthrex.Globs

/-- The components of a path or a glob. -/
def split (s : String) : List String := (s.toList.splitOn '/').map String.ofList

def join (l : List String) : String := String.ofList (['/'].intercalate (l.map String.toList))

/-- `trim_end_matches('/')`. -/
def trimSlashes (s : String) : String := String.ofList (s.toList.rdropWhile (· = '/'))

def containsAny (s : String) (chars : List Char) : Bool := s.toList.any (· ∈ chars)

/-- `globset` with literal separators: whether a pattern compiles, or what kind of error
    it has; whether patterns make a set; and what a pattern matches. -/
structure Globset where
  error : (caseInsensitive : Bool) → (pattern : String) → Option String
  setError : (patterns : List String) → Option String
  isMatch : (caseInsensitive : Bool) → (pattern path : String) → Bool

def wildcardChars : List Char := ['*', '?', '[']

def isLiteralComponent (component : String) : Bool := !containsAny component wildcardChars

def isLiteralGlob (glob : String) : Bool := !containsAny glob wildcardChars

/-- The components up to the first one with a metacharacter. -/
def literalPrefix (glob : String) : List String := (split glob).takeWhile isLiteralComponent

/-- Two globs intersect when one's literal prefix starts with the other's. -/
def intersects (a b : String) : Bool :=
  literalPrefix b <+: literalPrefix a ∨ literalPrefix a <+: literalPrefix b

def anyIntersect (a b : List String) : Bool := a.any fun ga => b.any fun gb => intersects ga gb

theorem intersects_comm (a b : String) : intersects a b = intersects b a := by
  simp only [intersects, or_comm]

theorem anyIntersect_comm (a b : List String) : anyIntersect a b = anyIntersect b a := by
  rw [Bool.eq_iff_iff]
  simp only [anyIntersect, List.any_eq_true]
  constructor
  · rintro ⟨x, hx, y, hy, h⟩
    exact ⟨y, hy, x, hx, intersects_comm x y ▸ h⟩
  · rintro ⟨y, hy, x, hx, h⟩
    exact ⟨x, hx, y, hy, intersects_comm y x ▸ h⟩

/-! ## Modules -/

/-- The module of one glob: `many` when it spans more than one by itself. -/
inductive GlobModule
  | named (name : String)
  | many
  deriving DecidableEq, Repr

/-- What one module pattern says of a glob with the literal prefix `pre`, if anything. -/
def patternModule (pre : List String) (pattern : String) : Option GlobModule :=
  let components := split pattern
  let k := components.length
  if k ≤ pre.length then
    if (components.zip pre).all fun (pc, gc) => pc = "*" ∨ pc = gc then
      some (.named (join (pre.take k)))
    else none
  else if pre <+: literalPrefix pattern then some .many
  else none

def globModule (glob : String) (modules : List String) : GlobModule :=
  (modules.findSome? (patternModule (literalPrefix glob))).getD (.named ".")

/-- The module directory a changed path belongs to. -/
def pathModule (path : String) (modules : List String) : Option String :=
  match globModule path modules with
  | .named name => if name ≠ "." then some name else none
  | .many => none

/-! ## Areas and literal names -/

/-- The glob lies inside an area: its literal prefix starts with that of an area glob. -/
def insideArea (glob : String) (area : List String) : Bool :=
  area.any fun a => literalPrefix a <+: literalPrefix glob

/-- An area glob is a literal path, or one with `/**` after it. -/
def isValidAreaGlob (glob : String) : Bool :=
  let chars := glob.toList
  let literal := if "/**".toList <:+ chars then String.ofList (chars.take (chars.length - 3)) else glob
  literal ≠ "" && (literalPrefix literal).length = (split literal).length

/-- The path an entry names whose only glob syntax is classes of one character. -/
def unescaped : List Char → Option (List Char)
  | [] => some []
  | '[' :: c :: ']' :: rest =>
    if c ∈ ['*', '?', '[', ']', '{', '}'] then (unescaped rest).map (c :: ·) else none
  | c :: rest => if c ∈ wildcardChars then none else (unescaped rest).map (c :: ·)

def normalizeLiteral (path : List Char) : List Char :=
  let path := match path with
    | '.' :: '/' :: rest => rest
    | _ => path
  path.rdropWhile (· = '/')

/-- An entry names the path exactly. -/
def namesLiterally (owns : List String) (path : String) : Bool :=
  owns.any fun entry =>
    (unescaped entry.toList).any fun literal =>
      normalizeLiteral literal = normalizeLiteral path.toList

/-! ## Validation -/

/-- The characters Unicode has as white space. -/
def isWhitespace (c : Char) : Bool :=
  let n := c.toNat
  (9 ≤ n ∧ n ≤ 13) ∨ n ∈ [32, 0x85, 0xa0, 0x1680, 0x2028, 0x2029, 0x202f, 0x205f, 0x3000] ∨
    (0x2000 ≤ n ∧ n ≤ 0x200a)

/-- The one or two patterns an entry expands to: a literal one matches itself and
    everything below it. A trailing `/` is dropped. -/
def matchPatterns (entry : String) : List String :=
  let trimmed := trimSlashes entry
  if isLiteralGlob entry then [trimmed, trimmed ++ "/**"] else [trimmed]

/-- The glob without a trailing `/`. -/
def body (glob : String) : String :=
  if glob.toList.getLast? = some '/' then String.ofList glob.toList.dropLast else glob

def validateGlob (G : Globset) (glob : String) : Except String Unit :=
  if glob.toList.all isWhitespace then .error "must not be blank"
  else if glob.toList.head? = some '/' then .error "must not be absolute"
  else if ".." ∈ split glob then .error "must not contain .."
  else if '\\' ∈ glob.toList then .error "must not contain \\"
  else if "." ∈ split (body glob) then .error "must not contain ."
  else if "" ∈ split (body glob) then .error "must not contain //"
  else
    match (matchPatterns glob).findSome? (G.error false) with
    | some kind => .error ("is not a valid glob: " ++ kind)
    | none => .ok ()

/-! ## Matching -/

/-- Whether a path falls under a list of globs. -/
structure OwnsMatcher where
  caseInsensitive : Bool
  patterns : List String
  deriving DecidableEq, Repr

/-- Why a matcher was not built. -/
inductive OwnsError
  | glob (pattern kind : String)
  | set (error : String)
  deriving DecidableEq, Repr

namespace OwnsMatcher

def build (G : Globset) (owns : List String) (caseInsensitive : Bool) :
    Except OwnsError OwnsMatcher :=
  let patterns := owns.flatMap matchPatterns
  match patterns.findSome? fun p => (G.error caseInsensitive p).map fun kind => (p, kind) with
  | some (p, kind) => .error (.glob p kind)
  | none =>
    match G.setError patterns with
    | some error => .error (.set error)
    | none => .ok ⟨caseInsensitive, patterns⟩

def new (G : Globset) (owns : List String) : Except OwnsError OwnsMatcher := build G owns false

def «matches» (G : Globset) (m : OwnsMatcher) (path : String) : Bool :=
  m.patterns.any fun p => G.isMatch m.caseInsensitive p path

end OwnsMatcher

end Anthrex.Globs
