/-
  TableMigrations.Store.Codec — values as bytes, in the wire format of postcard.

  A number of no fixed size goes seven bits to a byte, the lowest first. What has a length is preceded by it, and a
  variant by its number.
-/
import TableMigrations.Store.Relations

namespace TableMigrations

/-- A way to write values as bytes, and to read one off the front of bytes. -/
structure Codec (α : Type) where
  write : α → List UInt8
  read? : List UInt8 → Option (α × List UInt8)

namespace Codec

variable {α β : Type}

def via (c : Codec α) (make : α → β) (parts : β → α) : Codec β where
  write b := c.write (parts b)
  read? s := (c.read? s).map fun (a, r) => (make a, r)

def pair (c : Codec α) (d : Codec β) : Codec (α × β) where
  write p := c.write p.1 ++ d.write p.2
  read? s := do
    let (a, r) ← c.read? s
    let (b, r) ← d.read? r
    return ((a, b), r)

/-! ## numbers -/

def writeVarint (n : Nat) : List UInt8 :=
  if n < 128 then [n.toUInt8] else (n % 128 + 128).toUInt8 :: writeVarint (n / 128)

def readVarint : List UInt8 → Option (Nat × List UInt8)
  | [] => none
  | b :: r => if b < 128 then some (b.toNat, r) else (readVarint r).map fun (n, r) => (b.toNat - 128 + 128 * n, r)

def varint : Codec Nat := ⟨writeVarint, readVarint⟩

def writeLittle : Nat → Nat → List UInt8
  | 0, _ => []
  | width + 1, n => (n % 256).toUInt8 :: writeLittle width (n / 256)

def readLittle : Nat → List UInt8 → Option (Nat × List UInt8)
  | 0, s => some (0, s)
  | _ + 1, [] => none
  | width + 1, b :: r => (readLittle width r).map fun (n, r) => (b.toNat + 256 * n, r)

/-- Integers with the sign as the lowest bit. -/
def zigzag (n : Int) : Nat := if 0 ≤ n then 2 * n.toNat else 2 * (-n).toNat - 1

def unzigzag (m : Nat) : Int := if m % 2 = 0 then m / 2 else -((m + 1) / 2 : Nat)

def int64 : Codec Int64 := varint.via (fun m => .ofInt (unzigzag m)) fun n => zigzag n.toInt

def double : Codec Double where
  write x := writeLittle 8 x.toBits
  read? s := (readLittle 8 s).map fun (bits, r) => (.ofBits bits, r)

def bool : Codec Bool where
  write b := [if b then 1 else 0]
  read?
    | 0 :: r => some (false, r)
    | 1 :: r => some (true, r)
    | _ => none

/-! ## what has a length -/

def bytes : Codec ByteArray where
  write b := writeVarint b.size ++ b.data.toList
  read? s := do
    let (n, r) ← readVarint s
    if n ≤ r.length then return (⟨(r.take n).toArray⟩, r.drop n) else none

def string : Codec String where
  write s := bytes.write s.toUTF8
  read? s := do
    let (b, r) ← bytes.read? s
    return (← String.fromUTF8? b, r)

def readTimes (c : Codec α) : Nat → List UInt8 → Option (List α × List UInt8)
  | 0, s => some ([], s)
  | n + 1, s => do
    let (a, r) ← c.read? s
    let (l, r) ← readTimes c n r
    return (a :: l, r)

def list (c : Codec α) : Codec (List α) where
  write l := writeVarint l.length ++ l.flatMap c.write
  read? s := do
    let (n, r) ← readVarint s
    readTimes c n r

def map {κ : Type} [Ord κ] [Std.TransOrd κ] (c : Codec κ) (d : Codec α) : Codec (SortedMap κ α) :=
  (list (pair c d)).via .ofList (·.entries)

/-! ## properties and relations -/

def value : Codec Value where
  write
    | .string s => writeVarint 0 ++ string.write s
    | .int64 n => writeVarint 1 ++ int64.write n
    | .double x => writeVarint 2 ++ double.write x
    | .bool b => writeVarint 3 ++ bool.write b
  read? s := do
    match ← readVarint s with
    | (0, r) => (string.read? r).map fun (s, r) => (.string s, r)
    | (1, r) => (int64.read? r).map fun (n, r) => (.int64 n, r)
    | (2, r) => (double.read? r).map fun (x, r) => (.double x, r)
    | (3, r) => (bool.read? r).map fun (b, r) => (.bool b, r)
    | _ => none

def properties : Codec Properties := map string value

def rowAddress : Codec RowAddress :=
  (pair string (pair string string)).via (fun (table, partition, row) => ⟨table, partition, row⟩) fun a =>
    (a.table, a.key.partition, a.key.row)

def relations : Codec Relations :=
  (pair (list string) (map rowAddress bytes)).via (fun (names, rows) => ⟨.ofList (names.map (·, ())), rows⟩) fun r =>
    (r.names.keys, r.rows)

end Codec

end TableMigrations
