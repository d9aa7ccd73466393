/-
  TableMigrations.Files.Address — database addresses: a path, or a URI of the scheme `file`.

  A URI gives its path with percent escapes, and in its query what may be done with the file. Of its authority only
  the local machine is allowed, and what follows a number sign is passed over.
-/
import TableMigrations.Number.Notation
import TableMigrations.Text.Hex

namespace TableMigrations

inductive Access where
  | readOnly
  | readWrite
  /-- Its file is made if there is none. -/
  | create
  /-- It has no file. -/
  | memory
  deriving DecidableEq, Repr

/-- The mode of this name, unless it grants more than there is. -/
def Access.narrow (a : Access) (mode : String) : Option Access :=
  match mode, a with
  | "memory", _ => some .memory
  | "ro", _ => some .readOnly
  | "rw", .readOnly => none
  | "rw", _ => some .readWrite
  | "rwc", .readOnly | "rwc", .readWrite => none
  | "rwc", _ => some .create
  | _, _ => none

/-- How a database's bytes are kept, and how its users keep out of each other's way. -/
inductive Medium where
  /-- In a file that is locked part by part; its users have an index in common. -/
  | sharedFile
  /-- In a file that is locked for one user, who has an index of its own. -/
  | exclusiveFile
  /-- In a file that is locked by another one beside it. -/
  | guardedFile
  /-- In a file that is not locked. -/
  | plainFile
  | memory
  deriving DecidableEq, Repr

namespace Medium

def ofName? : String → Option Medium
  | "unix" => some .sharedFile
  | "unix-excl" => some .exclusiveFile
  | "unix-dotfile" => some .guardedFile
  | "unix-none" => some .plainFile
  | "memdb" => some .memory
  | _ => none

/-- Whether the file itself is locked, so that it is known from any other that takes its place. -/
def locksFile : Medium → Bool
  | .sharedFile | .exclusiveFile => true
  | .guardedFile | .plainFile | .memory => false

end Medium

structure Address where
  path : String
  access : Access
  medium : Medium
  /-- Whether users of the file wait for each other. -/
  locked : Bool
  /-- Whether the file is taken to be one that nobody changes. -/
  immutable : Bool
  /-- Whether the index to a log is only read. -/
  readOnlyIndex : Bool
  /-- A path to a file that a new one is to be like; it has to lead somewhere. -/
  pattern : Option String
  deriving DecidableEq, Repr

namespace Address

def ofPath (path : String) : Address := ⟨path, .create, .sharedFile, true, false, false, none⟩

/-- Whether changes can go through a log: users of the file wait for each other, and have an index. -/
def canLog (a : Address) : Bool := a.medium.locksFile && a.locked && !a.immutable

def isWritable (a : Address) : Bool := a.access != .readOnly && !a.immutable

/-! ## parts of a URI -/

def cut (c : Char) (s : List Char) : List Char × Option (List Char) :=
  match s.dropWhile (· != c) with
  | [] => (s, none)
  | _ :: r => (s.takeWhile (· != c), some r)

/-- The bytes of a part. An escape is a percent sign and two hexadecimal digits; one of a zero byte ends the part, and
    one of a byte from `limit` up stands as it is. -/
def partBytes (limit : Nat) : List Char → List UInt8
  | '%' :: a :: b :: r =>
    match Text.hexNumber? [a, b] with
    | some 0 => []
    | some n =>
      if n < limit then n.toUInt8 :: partBytes limit r else String.utf8EncodeChar '%' ++ partBytes limit (a :: b :: r)
    | none => String.utf8EncodeChar '%' ++ partBytes limit (a :: b :: r)
  | c :: r => String.utf8EncodeChar c ++ partBytes limit r
  | [] => []

def textOf? (bytes : List UInt8) : Option String := String.fromUTF8? ⟨bytes.toArray⟩

/-- The text of a part. If its bytes are no text, only the escapes of ASCII characters count. -/
def partText (s : List Char) : String :=
  ((textOf? (partBytes 256 s)).or (textOf? (partBytes 128 s))).getD (.ofList s)

/-- Names and values of a query. A value may be missing; what has no name is passed over. -/
def parameters (query : List Char) : List (String × String) :=
  ((query.splitOn '&').map fun p =>
    let (name, value) := cut '=' p
    (partText name, partText (value.getD []))).filter (·.1 != "")

def skipAuthority : List Char → Option (List Char)
  | '/' :: '/' :: r =>
    if ["", "localhost"].contains (String.ofList (r.takeWhile (· != '/'))) then some (r.dropWhile (· != '/')) else none
  | r => some r

/-- The number that a text starts with, in 31 bits. A hexadecimal one has at most eight digits that count. -/
def leadingNumber : List Char → Option Nat
  | '0' :: x :: d :: r =>
    if (x == 'x' || x == 'X') && (Text.hexValue? d).isSome then
      let digits := ((d :: r).takeWhile fun c => (Text.hexValue? c).isSome).dropWhile (· == '0')
      if digits.length ≤ 8 then Text.hexNumber? digits else none
    else some (digitsValue (('0' :: x :: d :: r).takeWhile Char.isDigit))
  | cs => some (digitsValue (cs.takeWhile Char.isDigit))

/-- A switch is on by a number other than zero, which counts in one byte, or by a word. -/
def isOn (value : String) : Bool :=
  if value.toList.head?.any Char.isDigit then
    match leadingNumber value.toList with
    | some n => n < 1 <<< 31 && n % 256 != 0
    | none => false
  else ["on", "yes", "true"].contains value.toLower

def accessOf (a : Access) : List (String × String) → Option Access
  | [] => some a
  | ("mode", mode) :: r => do accessOf (← a.narrow mode) r
  | ("cache", sharing) :: r => if ["shared", "private"].contains sharing then accessOf a r else none
  | _ :: r => accessOf a r

def mediumOf (parameters : List (String × String)) : Option Medium :=
  match (parameters.filter (·.1 == "vfs")).getLast? with
  | none => some .sharedFile
  | some (_, name) => Medium.ofName? name

def read? (address : String) : Option Address :=
  match address.toList with
  | 'f' :: 'i' :: 'l' :: 'e' :: ':' :: r => do
    let (path, query) := cut '?' (cut '#' (← skipAuthority r)).1
    let ps := (query.map parameters).getD []
    return {
      path := partText path
      access := ← accessOf .create ps
      medium := ← mediumOf ps
      locked := !(ps.lookup "nolock").any isOn
      immutable := (ps.lookup "immutable").any isOn
      readOnlyIndex := (ps.lookup "readonly_shm").any isOn
      pattern := ps.lookup "modeof" }
  | _ => some (.ofPath address)

end Address

end TableMigrations
