/-
  TableMigrations.Proofs.Lines — a migration file is its lines, whatever ends them.

  `Falls` says what the lines of a text are without reading it from the front: a line ends at a line feed, with the
  carriage return right before it if there is one, and what follows the last line feed is a line unless it is nothing.
  Every text falls into lines in one way (`falls_iff`). A file is then read line by line: it is accepted when all its
  lines are, and refused at the first that is not (`parseLines_eq_ok_iff`, `parseLines_eq_error_iff`).
-/
import Mathlib
import TableMigrations.Migration.Text
import TableMigrations.Proofs.Grammar

namespace TableMigrations

/-! ## lines of a text -/

namespace Text

inductive LineEnd where
  | feed
  | returnFeed
  deriving DecidableEq, Repr

def LineEnd.chars : LineEnd → List Char
  | .feed => ['\n']
  | .returnFeed => ['\r', '\n']

/-- A line that an end can be written after and told from: it has no line feed, and no carriage return that a line feed
    would take along. -/
def Ends (l : List Char) (e : LineEnd) : Prop := '\n' ∉ l ∧ (e = .feed → l.getLast? ≠ some '\r')

/-- How a text falls into lines. -/
inductive Falls : List Char → List (List Char) → Prop
  | nil : Falls [] []
  /-- The last line may go without an end. -/
  | rest {l : List Char} : l ≠ [] → '\n' ∉ l → Falls l [l]
  | line {l r : List Char} {e : LineEnd} {ls : List (List Char)} : Ends l e → Falls r ls →
      Falls (l ++ e.chars ++ r) (l :: ls)

theorem lines_cons {c : Char} {r : List Char} (hc : c ≠ '\n') (hr : c = '\r' → r.head? ≠ some '\n') :
    lines (c :: r) = match lines r with
      | [] => [[c]]
      | l :: ls => (c :: l) :: ls :=
  lines.eq_4 c r hc fun _ hreturn hfeed => hr hreturn (by rw [hfeed]; rfl)

theorem lines_rest {l : List Char} (hl : l ≠ []) (hfeed : '\n' ∉ l) : lines l = [l] := by
  induction l with
  | nil => exact absurd rfl hl
  | cons c r ih =>
    obtain ⟨hc, hr⟩ := not_or.mp (List.mem_cons.not.mp hfeed)
    have hhead : r.head? ≠ some '\n' := fun h => hr (List.mem_of_head? h)
    rw [lines_cons (Ne.symm hc) fun _ => hhead]
    cases r with
    | nil => rfl
    | cons d r => rw [ih (List.cons_ne_nil d r) hr]

theorem lines_line {l : List Char} {e : LineEnd} (h : Ends l e) (r : List Char) :
    lines (l ++ e.chars ++ r) = l :: lines r := by
  induction l with
  | nil => cases e <;> rfl
  | cons c l ih =>
    obtain ⟨hfeed, hlast⟩ := h
    obtain ⟨hc, hl⟩ := not_or.mp (List.mem_cons.not.mp hfeed)
    have hrest : Ends l e := by
      refine ⟨hl, fun he hreturn => hlast he ?_⟩
      rw [List.getLast?_cons, hreturn, Option.getD_some]
    have hhead : c = '\r' → (l ++ e.chars ++ r).head? ≠ some '\n' := by
      rintro rfl
      cases l with
      | nil =>
        cases e with
        | feed => exact absurd rfl (hlast rfl)
        | returnFeed => simp [LineEnd.chars]
      | cons d l =>
        rw [List.cons_append, List.cons_append, List.head?_cons, ne_eq, Option.some_inj]
        rintro rfl
        exact hl (List.mem_cons_self)
    rw [List.cons_append, List.cons_append, lines_cons (Ne.symm hc) hhead, ih hrest]

theorem Falls.lines_eq {text : List Char} {ls : List (List Char)} (h : Falls text ls) : lines text = ls := by
  induction h with
  | nil => rfl
  | rest hl hfeed => exact lines_rest hl hfeed
  | line hend _ ih => rw [lines_line hend, ih]

theorem exists_falls (text : List Char) : ∃ ls, Falls text ls := by
  induction hn : text.length using Nat.strong_induction_on generalizing text with
  | _ n ih =>
    by_cases hfeed : '\n' ∈ text
    · obtain ⟨l, r, rfl, hl⟩ := List.eq_append_cons_of_mem hfeed
      obtain ⟨ls, hls⟩ := ih r.length (by rw [← hn, List.length_append, List.length_cons]; omega) r rfl
      by_cases hreturn : l.getLast? = some '\r'
      · obtain ⟨l, rfl⟩ := List.getLast?_eq_some_iff.mp hreturn
        have hend : Ends l .returnFeed := ⟨fun h => hl (List.mem_append_left _ h), nofun⟩
        exact ⟨l :: ls, by simpa [LineEnd.chars] using Falls.line hend hls⟩
      · have hend : Ends l .feed := ⟨hl, fun _ => hreturn⟩
        exact ⟨l :: ls, by simpa [LineEnd.chars] using Falls.line hend hls⟩
    · rcases eq_or_ne text [] with rfl | hne
      · exact ⟨[], .nil⟩
      · exact ⟨[text], .rest hne hfeed⟩

/-- Every text falls into lines in one way. -/
theorem falls_iff {text : List Char} {ls : List (List Char)} : Falls text ls ↔ ls = lines text := by
  constructor
  · exact fun h => h.lines_eq.symm
  · rintro rfl
    obtain ⟨ls, h⟩ := exists_falls text
    rwa [h.lines_eq]

/-- A text of lines with their ends, of which the last one may be left out. -/
def written (ended : List (List Char × LineEnd)) (last : List Char) (final : Option LineEnd) : List Char :=
  ended.flatMap (fun w => w.1 ++ w.2.chars) ++ (last ++ final.elim [] LineEnd.chars)

def Single (l : List Char) : Prop := '\n' ∉ l ∧ l.getLast? ≠ some '\r'

instance (l : List Char) : Decidable (Single l) := inferInstanceAs (Decidable (_ ∧ _))

theorem Single.ends {l : List Char} (h : Single l) (e : LineEnd) : Ends l e := ⟨h.1, fun _ => h.2⟩

theorem falls_last {last : List Char} (h : Single last) (hne : last ≠ []) (final : Option LineEnd) :
    Falls (last ++ final.elim [] LineEnd.chars) [last] := by
  cases final with
  | none =>
    rw [Option.elim_none, List.append_nil]
    exact .rest hne h.1
  | some e =>
    rw [Option.elim_some, ← List.append_nil (last ++ e.chars)]
    exact .line (h.ends e) .nil

/-- A text falls into the lines that it was written of, whatever ends were chosen. -/
theorem falls_written {ended : List (List Char × LineEnd)} {last : List Char} (final : Option LineEnd)
    (hended : ∀ w ∈ ended, Single w.1) (hlast : Single last) (hne : last ≠ []) :
    Falls (written ended last final) (ended.map (·.1) ++ [last]) := by
  induction ended with
  | nil => exact falls_last hlast hne final
  | cons w ended ih =>
    have hrest := ih fun v hv => hended v (List.mem_cons_of_mem w hv)
    rw [written, List.flatMap_cons, List.append_assoc]
    exact .line ((hended w List.mem_cons_self).ends w.2) hrest

end Text

/-! ## reading line by line -/

namespace Operation

def Asks (l : List Char) (op : Operation) : Prop := parse (.ofList l) = .ok op

instance (l : List Char) (op : Operation) : Decidable (Asks l op) :=
  inferInstanceAs (Decidable (parse (.ofList l) = .ok op))

theorem parseLines_eq_ok_iff {n : Nat} {ls : List (List Char)} {ops : List Operation} :
    parseLines n ls = .ok ops ↔ List.Forall₂ Asks ls ops := by
  induction ls generalizing n ops with
  | nil => simp [parseLines, eq_comm]
  | cons l ls ih =>
    rw [parseLines, List.forall₂_cons_left_iff]
    constructor
    · intro h
      split at h
      · cases h
      · rename_i op hop
        obtain ⟨later, hlater, rfl⟩ := map_eq_ok_iff.mp h
        exact ⟨op, later, hop, ih.mp hlater, rfl⟩
    · rintro ⟨op, later, hop, hlater, rfl⟩
      have hparse : parse (.ofList l) = .ok op := hop
      rw [hparse]
      exact map_eq_ok_iff.mpr ⟨later, ih.mpr hlater, rfl⟩

theorem parseLines_eq_error_iff {n k : Nat} {ls : List (List Char)} {e : LineError} :
    parseLines n ls = .error (k, e) ↔ ∃ before l after, ls = before ++ l :: after ∧ k = n + before.length ∧
      (∀ m ∈ before, ∃ op, Asks m op) ∧ parse (.ofList l) = .error e := by
  induction ls generalizing n with
  | nil => simp [parseLines]
  | cons l ls ih =>
    rw [parseLines]
    rcases hl : parse (.ofList l) with e' | op
    · constructor
      · rintro ⟨⟩
        exact ⟨[], l, ls, rfl, rfl, nofun, hl⟩
      · rintro ⟨before, m, after, hls, rfl, hbefore, hm⟩
        cases before with
        | nil =>
          cases hls
          rw [hl] at hm
          cases hm
          rfl
        | cons m' before =>
          cases hls
          obtain ⟨op, hop⟩ := hbefore l List.mem_cons_self
          exact absurd (hl.symm.trans hop) nofun
    · rw [map_eq_error_iff, ih]
      constructor
      · rintro ⟨before, m, after, rfl, rfl, hbefore, hm⟩
        exact ⟨l :: before, m, after, rfl, by rw [List.length_cons]; omega,
          List.forall_mem_cons.mpr ⟨⟨op, hl⟩, hbefore⟩, hm⟩
      · rintro ⟨before, m, after, hls, rfl, hbefore, hm⟩
        cases before with
        | nil =>
          cases hls
          exact absurd (hl.symm.trans hm) nofun
        | cons m' before =>
          cases hls
          exact ⟨before, m, after, rfl, by rw [List.length_cons]; omega, (List.forall_mem_cons.mp hbefore).2, hm⟩

theorem Asks.ne_nil {l : List Char} {op : Operation} (h : Asks l op) : l ≠ [] := by
  rintro rfl
  have hrefused : parse (.ofList []) = .error (.emptyField (.ofList [])) := by rfl
  exact absurd (hrefused.symm.trans h) nofun

end Operation

/-- What reading a migration file makes of its lines. -/
structure ReadByLine (text : String) (lines : List (List Char)) : Prop where
  /-- A file is accepted exactly when all its lines are, and gives their operations in order. -/
  accepted : ∀ ops, parseMigration text = .ok ops ↔ List.Forall₂ Operation.Asks lines ops
  /-- It is refused for the first line that is not accepted, with that line's number, from one, and its fault. -/
  refused : ∀ k e, parseMigration text = .error (k, e) ↔ ∃ before l after, lines = before ++ l :: after ∧
    k = before.length + 1 ∧ (∀ m ∈ before, ∃ op, Operation.Asks m op) ∧ Operation.parse (.ofList l) = .error e

theorem readByLine (text : String) : ReadByLine text (Text.lines text.toList) where
  accepted _ := Operation.parseLines_eq_ok_iff
  refused k e := by simp only [parseMigration, Operation.parseLines_eq_error_iff, Nat.add_comm 1]

/-- A migration file is read line by line, and how its lines are ended makes no difference. -/
theorem parseMigration_written :
    (∀ text : String, ∃ lines, (∀ ls, Text.Falls text.toList ls ↔ ls = lines) ∧ ReadByLine text lines) ∧
      ∀ ended last final ops, (∀ w ∈ ended, Text.Single w.1) → Text.Single last →
        List.Forall₂ Operation.Asks (ended.map (·.1) ++ [last]) ops →
        parseMigration (.ofList (Text.written ended last final)) = .ok ops := by
  refine ⟨fun text => ⟨_, fun _ => Text.falls_iff, readByLine text⟩, ?_⟩
  intro ended last final ops hended hlast hops
  obtain ⟨op, -, hop⟩ := exists_of_mem_right hops.flip (List.mem_append_right _ (List.mem_singleton_self last))
  have hne : last ≠ [] := Operation.Asks.ne_nil hop
  have hlines := Text.falls_iff.mp (Text.falls_written final hended hlast hne)
  rw [(readByLine _).accepted, String.toList_ofList, ← hlines]
  exact hops

/-- A blank line is a line, and none that is accepted. -/
example : parseMigration "DELETE t *\r\n\r\nDELETE t *" = .error (2, .emptyField "") := by decide +kernel

/-- Lines with both kinds of end, and a carriage return that is part of a value. -/
def mixedEnds : List (List Char × Text.LineEnd) :=
  [("INSERT t p r a|x\ry|STRING".toList, .returnFeed), ("DELETE t *".toList, .feed)]

theorem parseMigration_mixedEnds :
    (∀ w ∈ mixedEnds, Text.Single w.1) ∧
      parseMigration "INSERT t p r a|x\ry|STRING\r\nDELETE t *\nUPDATEA t b|1|NUMBER" =
        .ok [⟨"t", .row .add ⟨⟨"p", "r"⟩, .ofList [("a", .string "x\ry")]⟩⟩, ⟨"t", .deleteAll⟩,
          ⟨"t", .updateAll ⟨.ofList [("b", .int64 1)]⟩⟩] := by
  have hended : ∀ w ∈ mixedEnds, Text.Single w.1 := by decide +kernel
  refine ⟨hended, ?_⟩
  have htext : String.ofList (Text.written mixedEnds "UPDATEA t b|1|NUMBER".toList none) =
      "INSERT t p r a|x\ry|STRING\r\nDELETE t *\nUPDATEA t b|1|NUMBER" := by rfl
  rw [← htext]
  refine parseMigration_written.2 mixedEnds "UPDATEA t b|1|NUMBER".toList none _ hended (by decide +kernel) ?_
  exact .cons (by decide +kernel) (.cons (by decide +kernel) (.cons (by decide +kernel) .nil))

end TableMigrations
