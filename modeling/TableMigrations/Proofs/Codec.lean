/-
  TableMigrations.Proofs.Codec — what is written as bytes is read back off them.

  A codec is faithful if it reads what it has written, whatever follows, and takes no more than that. The parts of a
  composite one being faithful, so is the whole. From this follow the properties of a row and the relations of a
  database, and that a file is the image that its bytes were made from (`Image.ofBytes?_bytes`).
-/
import TableMigrations.Proofs.SortedMap
import TableMigrations.Store.Image

namespace TableMigrations

namespace Codec

variable {α β κ : Type}

structure Faithful (c : Codec α) : Prop where
  read (a : α) (rest : List UInt8) : c.read? (c.write a ++ rest) = some (a, rest)

theorem Faithful.via {c : Codec α} (h : c.Faithful) {make : α → β} {parts : β → α} (hm : ∀ b, make (parts b) = b) :
    (c.via make parts).Faithful := by
  constructor
  intro b rest
  simp [Codec.via, h.read, hm]

theorem Faithful.pair {c : Codec α} {d : Codec β} (hc : c.Faithful) (hd : d.Faithful) : (c.pair d).Faithful := by
  constructor
  intro p rest
  simp [Codec.pair, hc.read, hd.read]

/-! ## numbers -/

theorem faithful_varint : varint.Faithful := by
  constructor
  intro n
  induction n using Nat.strongRecOn with
  | ind n ih =>
    intro rest
    show readVarint (writeVarint n ++ rest) = some (n, rest)
    rw [writeVarint]
    split
    next h =>
      have hb : n.toUInt8 < 128 := UInt8.lt_iff_toNat_lt.mpr (by simpa using by omega)
      simp [readVarint, hb]
      omega
    next h =>
      have hb : ¬(n % 128 + 128).toUInt8 < 128 := by
        rw [UInt8.lt_iff_toNat_lt]
        simp
        omega
      have hlow : (n % 128 + 128).toUInt8.toNat = n % 128 + 128 := by
        simp
        omega
      have hrest : readVarint (writeVarint (n / 128) ++ rest) = some (n / 128, rest) := ih (n / 128) (by omega) rest
      simp only [List.cons_append, readVarint, if_neg hb, hrest, Option.map_some, hlow, Option.some.injEq, Prod.mk.injEq,
        and_true]
      omega

theorem readLittle_writeLittle (width : Nat) {n : Nat} (h : n < 256 ^ width) (rest : List UInt8) :
    readLittle width (writeLittle width n ++ rest) = some (n, rest) := by
  induction width generalizing n with
  | zero =>
    obtain rfl : n = 0 := by simpa using h
    rfl
  | succ width ih =>
    have hn : n / 256 < 256 ^ width := by
      rw [Nat.div_lt_iff_lt_mul (by decide), ← Nat.pow_succ]
      exact h
    simp [writeLittle, readLittle, ih hn]
    omega

theorem unzigzag_zigzag (n : Int) : unzigzag (zigzag n) = n := by
  unfold unzigzag zigzag
  split <;> split <;> omega

theorem faithful_int64 : int64.Faithful :=
  faithful_varint.via fun n => by rw [unzigzag_zigzag, Int64.ofInt_toInt]

end Codec

namespace Double

theorem signBit_eq : signBit = 9223372036854775808 := by decide

theorem ofCode_of_lt (negative : Bool) {code : Nat} (h : code < infinityCode) :
    ofCode negative code = .finite negative ⟨code, h⟩ := by
  unfold ofCode
  exact dif_pos h

theorem ofBits_toBits (x : Double) : ofBits x.toBits = x := by
  cases x with
  | finite negative code =>
    obtain ⟨code, hlt⟩ := code
    have hcode : code < signBit := Nat.lt_trans hlt (by decide)
    have hmod : (negative.toNat * signBit + code) % signBit = code := by
      rw [Nat.mul_add_mod_self_right, Nat.mod_eq_of_lt hcode]
    have hsign : decide (signBit ≤ negative.toNat * signBit + code) = negative := by
      cases negative
      · rw [Bool.toNat_false, Nat.zero_mul, Nat.zero_add, decide_eq_false (Nat.not_le.mpr hcode)]
      · rw [Bool.toNat_true, Nat.one_mul, decide_eq_true (Nat.le_add_right _ _)]
    show ofBits (negative.toNat * signBit + code) = _
    unfold ofBits
    simp only [hmod, hsign]
    exact (if_pos (Nat.le_of_lt hlt)).trans (ofCode_of_lt negative hlt)
  | infinite negative => cases negative <;> decide
  | nan => decide

theorem toBits_lt (x : Double) : x.toBits < 256 ^ 8 := by
  cases x with
  | finite negative code =>
    obtain ⟨code, hlt⟩ := code
    have hcode : code < signBit := Nat.lt_trans hlt (by decide)
    have hsign : negative.toNat ≤ 1 := negative.toNat_le
    show negative.toNat * signBit + code < 256 ^ 8
    rw [signBit_eq] at *
    omega
  | infinite negative => cases negative <;> decide
  | nan => decide

end Double

namespace Codec

variable {α β κ : Type}

theorem faithful_double : double.Faithful := by
  constructor
  intro x rest
  simp only [double, readLittle_writeLittle 8 x.toBits_lt, Option.map_some, x.ofBits_toBits]

theorem faithful_bool : bool.Faithful := by
  constructor
  intro b rest
  cases b <;> rfl

/-! ## what has a length -/

theorem readVarint_writeVarint (n : Nat) (rest : List UInt8) : readVarint (writeVarint n ++ rest) = some (n, rest) :=
  faithful_varint.read n rest

theorem faithful_bytes : bytes.Faithful := by
  constructor
  rintro ⟨⟨l⟩⟩ rest
  have hwrite : bytes.write ⟨⟨l⟩⟩ ++ rest = writeVarint l.length ++ (l ++ rest) := List.append_assoc _ _ _
  rw [hwrite]
  simp [bytes, readVarint_writeVarint]

theorem faithful_string : string.Faithful := by
  constructor
  intro s rest
  have hutf8 : String.fromUTF8? s.toByteArray = some s := dif_pos s.isValidUTF8
  simp [string, faithful_bytes.read, hutf8]

theorem Faithful.list {c : Codec α} (h : c.Faithful) : (Codec.list c).Faithful := by
  have htimes : ∀ (l : List α) rest, readTimes c l.length (l.flatMap c.write ++ rest) = some (l, rest) := by
    intro l rest
    induction l with
    | nil => rfl
    | cons a l ih => simp [readTimes, h.read, ih]
  constructor
  intro l rest
  simp [Codec.list, readVarint_writeVarint, htimes]

theorem Faithful.map [Ord κ] [Std.TransOrd κ] [Std.LawfulEqOrd κ] {c : Codec κ} {d : Codec α} (hc : c.Faithful)
    (hd : d.Faithful) : (Codec.map c d).Faithful :=
  (hc.pair hd).list.via SortedMap.ofList_entries

/-! ## properties and relations -/

theorem faithful_value : value.Faithful := by
  constructor
  intro v rest
  cases v with
  | string s => simp [value, readVarint_writeVarint, faithful_string.read]
  | int64 n => simp [value, readVarint_writeVarint, faithful_int64.read]
  | double x => simp [value, readVarint_writeVarint, faithful_double.read]
  | bool b => simp [value, readVarint_writeVarint, faithful_bool.read]

theorem faithful_properties : properties.Faithful := faithful_string.map faithful_value

theorem faithful_rowAddress : rowAddress.Faithful :=
  (faithful_string.pair (faithful_string.pair faithful_string)).via fun _ => rfl

theorem faithful_relations : relations.Faithful := by
  refine (faithful_string.list.pair (faithful_rowAddress.map faithful_bytes)).via fun r => ?_
  have hnames : r.names.keys.map (·, ()) = r.names.entries := by
    rw [SortedMap.keys, List.map_map]
    exact List.map_id _
  simp only [hnames, SortedMap.ofList_entries]

end Codec

/-! ## files -/

namespace Image

theorem size_firstPage (logged : Bool) : (firstPage logged).size = pageSize := by
  have hhead : (heading logged).length ≤ pageSize := by cases logged <;> decide +kernel
  show (heading logged ++ List.replicate (pageSize - (heading logged).length) 0).length = pageSize
  rw [List.length_append, List.length_replicate]
  omega

theorem firstPage_ne : firstPage true ≠ firstPage false := by
  intro h
  have hlists := congrArg (fun b : ByteArray => b.data.toList) h
  simp [firstPage, heading] at hlists

theorem relationsOf?_bytes (i : Image) : relationsOf? i.bytes = some i.relations := by
  obtain ⟨logged, _ | r⟩ := i
  · simp [bytes, relationsOf?, size_firstPage]
  · obtain ⟨written, hwritten⟩ : ∃ l, Codec.relations.write r = l := ⟨_, rfl⟩
    let b := firstPage logged ++ ⟨#[mark]⟩ ++ ⟨written.toArray⟩
    have hhead : (firstPage logged ++ ⟨#[mark]⟩).size = pageSize + 1 := by
      rw [ByteArray.size_append, size_firstPage]
      rfl
    have hsize : b.size = pageSize + 1 + written.length := by
      rw [ByteArray.size_append, hhead]
      rfl
    have hmark : b[pageSize]? = some mark := by
      have hlt : pageSize < b.size := by omega
      rw [getElem?_pos b pageSize hlt, ByteArray.getElem_append_left (by omega),
        ByteArray.getElem_append_right (size_firstPage logged).le]
      simp only [size_firstPage, Nat.sub_self]
      rfl
    have hrest : b.extract (pageSize + 1) b.size = ⟨written.toArray⟩ :=
      ByteArray.extract_append_eq_right hhead.symm (by rw [hsize, hhead]; rfl)
    have hread := Codec.faithful_relations.read r []
    rw [hwritten, List.append_nil] at hread
    have hne : b.size ≠ pageSize := by omega
    simp only [bytes, hwritten, relationsOf?]
    rw [if_neg hne, if_pos hmark, hrest]
    simp only [hread]

/-- A file is read as the image that its bytes were made from. -/
theorem ofBytes?_bytes (i : Image) : ofBytes? i.bytes = some i := by
  have hfirst : i.bytes.extract 0 pageSize = firstPage i.logged := by
    obtain ⟨logged, _ | r⟩ := i
    · show (firstPage logged).extract 0 pageSize = firstPage logged
      rw [← size_firstPage logged, ByteArray.extract_zero_size]
    · show (firstPage logged ++ ⟨#[mark]⟩ ++ _).extract 0 pageSize = firstPage logged
      rw [ByteArray.append_assoc]
      exact ByteArray.extract_append_eq_left (size_firstPage logged).symm
  unfold ofBytes?
  simp only [hfirst, relationsOf?_bytes]
  obtain ⟨_ | _, relations⟩ := i
  · simp [firstPage_ne.symm]
  · simp

end Image

end TableMigrations
