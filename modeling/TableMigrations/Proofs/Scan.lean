/-
  TableMigrations.Proofs.Scan — a scan of a table that is written while the scan is under way.

  A pager remembers no more than the key of the last row that it has handed out. `Fetched` lists what a fetch can come
  to, by the rows that the table has at that moment. Whatever calls are made between the fetches, keys therefore only
  go up, a row that is there all the time is handed out once, and after the last page nothing comes
  (`fetches_thorough`).
-/
import TableMigrations.Proofs.Backends

namespace TableMigrations

open Std

/-! ## rows past a position -/

namespace SortedMap

variable {κ α : Type} [Ord κ]

theorem mem_past {m : SortedMap κ α} {after : Option κ} {x : κ × α} :
    x ∈ m.past after ↔ x ∈ m.entries ∧ ∀ k ∈ after, compare k x.1 = .lt := by
  cases after <;> simp [past]

theorem past_sorted (m : SortedMap κ α) (after : Option κ) :
    (m.past after).Pairwise fun a b => compare a.1 b.1 = .lt := by
  cases after with
  | none => exact m.sorted
  | some k => exact m.sorted.filter _

variable [TransOrd κ]

theorem past_suffix (m : SortedMap κ α) (after : Option κ) : m.past after <:+ m.entries := by
  obtain ⟨l, hl⟩ := m
  cases after with
  | none => exact List.suffix_rfl
  | some k =>
    simp only [past]
    induction l with
    | nil => exact List.suffix_rfl
    | cons e r ih =>
      obtain ⟨he, hr⟩ := List.pairwise_cons.mp hl
      by_cases hk : compare k e.1 = .lt
      · have hall : ∀ x ∈ e :: r, (compare k x.1 == .lt) = true := by
          intro x hx
          rcases List.mem_cons.mp hx with rfl | hx
          · simp [hk]
          · simp [TransCmp.lt_trans hk (he x hx)]
        rw [List.filter_eq_self.mpr hall]
      · rw [List.filter_cons, if_neg (by simpa using hk)]
        exact (ih hr).trans (List.suffix_cons e r)

variable [LawfulEqOrd κ]

/-- Past the last key of a stretch that follows a position lies what follows the stretch. -/
theorem past_past {m : SortedMap κ α} {after : Option κ} {l r : List (κ × α)} {x : κ × α}
    (h : m.past after = l ++ x :: r) : m.past (some x.1) = r := by
  obtain ⟨front, hfront⟩ := m.past_suffix after
  rw [h, ← List.append_assoc] at hfront
  exact past_cut hfront.symm

end SortedMap

/-! ## fetches -/

def handed : Except StoreError (Option (List Entity)) → List Entity
  | .ok (some page) => page
  | .ok none | .error _ => []

/-- Whether an answer tells that nothing more follows, or hands out rows with none behind them in the table. -/
def EndsScan (table : Option Rows) (answer : Except StoreError (Option (List Entity))) : Prop :=
  answer = .ok none ∨ ∃ page rows, answer = .ok (some page) ∧ table = some rows ∧
    rows.past (page.getLast?.map (·.key)) = []

structure Fetch (σ : Type) where
  store : σ
  before : Pager
  after : Pager
  answer : Except StoreError (Option (List Entity))

namespace Fetch

variable {σ : Type}

/-- Whether the store was asked and had the table. A scan at its end asks no more. -/
def Successful (f : Fetch σ) : Prop := f.before.exhausted = false ∧ f.answer.isOk = true

def table? [TableStore σ] [MemoryLike σ] (f : Fetch σ) (table : String) : Option Rows :=
  (MemoryLike.view f.store).tables.get? table

end Fetch

def pageByPage (size : Nat) (rows : List Entity) (more : Nat) : List (Except StoreError (Option (List Entity))) :=
  (pieces size rows).map (.ok <| some ·) ++ List.replicate more (.ok none)

theorem take_pageByPage {size : Nat} {rows : List Entity} {n : Nat} (h : (pieces size rows).length ≤ n) :
    (pageByPage size rows n).take n = pageByPage size rows (n - (pieces size rows).length) := by
  simp [pageByPage, List.take_append, List.take_of_length_le, h, List.take_replicate]

theorem flatMap_pageByPage (size : Nat) (rows : List Entity) (more : Nat) :
    (pageByPage size rows more).flatMap handed = rows := by
  rw [pageByPage, List.flatMap_append, List.flatMap_map, List.flatMap_replicate]
  simp [handed]

def handedOut {σ : Type} (log : List (Fetch σ)) : List Entity := (log.map Fetch.answer).flatMap handed

theorem handedOut_cons {σ : Type} (f : Fetch σ) (log : List (Fetch σ)) :
    handedOut (f :: log) = handed f.answer ++ handedOut log := rfl

def performAll {σ : Type} [TableStore σ] (s : σ) (calls : List Call) : σ :=
  calls.foldl (fun s c => (TableStore.perform s c).2) s

/-- The fetches of a pager that is asked for a page after each of these stretches of calls. -/
def Pager.fetches {σ : Type} [TableStore σ] (p : Pager) (s : σ) : List (List Call) → List (Fetch σ)
  | [] => []
  | calls :: r =>
    let (answer, after, left) := p.nextPage (performAll s calls)
    ⟨performAll s calls, p, after, answer⟩ :: after.fetches left r

/-! ## what a fetch comes to -/

/-- What a fetch can answer and where it leaves the pager, by the rows that the table has, if there is one. -/
inductive Fetched (p : Pager) (table : Option Rows) : Except StoreError (Option (List Entity)) → Pager → Prop
  | finished (hx : p.exhausted = true) : Fetched p table (.ok none) p
  | missing (hx : p.exhausted = false) (ht : table = none) : Fetched p table (.error (.tableNotFound p.table)) p
  | ended {rows : Rows} (hx : p.exhausted = false) (ht : table = some rows) (hr : rows.past p.after = []) :
      Fetched p table (.ok none) { p with after := none, exhausted := true }
  | last {rows : Rows} {init : List (RowKey × Entity)} {x : RowKey × Entity} (hx : p.exhausted = false)
      (ht : table = some rows) (hr : rows.past p.after = init ++ [x]) (hn : (init ++ [x]).length ≤ p.pageSize) :
      Fetched p table (.ok (some ((init ++ [x]).map (·.2)))) { p with after := none, exhausted := true }
  | more {rows : Rows} {init later : List (RowKey × Entity)} {x : RowKey × Entity} (hx : p.exhausted = false)
      (ht : table = some rows) (hr : rows.past p.after = init ++ x :: later) (hn : (init ++ [x]).length = p.pageSize)
      (hl : later ≠ []) :
      Fetched p table (.ok (some ((init ++ [x]).map (·.2)))) { p with after := some x.1, exhausted := false }

/-- A page with rows: all that are left, or as many as a page has. -/
theorem fetched_page {p : Pager} {rows : Rows} (hx : p.exhausted = false) (hs : 1 ≤ p.pageSize)
    (hw : Rows.WellFiled rows) (hr : rows.past p.after ≠ []) :
    Fetched p (some rows) (.ok (some (((rows.past p.after).take p.pageSize).map (·.2))))
      (Execution.turned p (rows.past p.after)) := by
  obtain ⟨rest, hrest⟩ : ∃ rest, rest = rows.past p.after := ⟨_, rfl⟩
  rw [← hrest] at hr ⊢
  have hpos := List.length_pos_iff.mpr hr
  by_cases hmore : p.pageSize < rest.length
  · have hpage : rest.take p.pageSize ≠ [] := by
      rw [← List.length_pos_iff, List.length_take]
      omega
    obtain ⟨init, x, hlast⟩ : ∃ init x, rest.take p.pageSize = init ++ [x] :=
      ⟨_, _, (List.dropLast_concat_getLast hpage).symm⟩
    have hcut : rest = init ++ x :: rest.drop p.pageSize := by
      have := List.take_append_drop p.pageSize rest
      rw [hlast, List.append_assoc] at this
      exact this.symm
    have hkey : x.2.key = x.1 := by
      have hmem : x ∈ rows.past p.after := by rw [← hrest, hcut]; simp
      exact hw.key_of_mem (SortedMap.mem_past.mp hmem).1
    rw [Execution.turned_more hmore hlast hkey, hlast]
    refine .more hx rfl (hrest.symm.trans hcut) ?_ ?_
    · rw [← hlast, List.length_take]; omega
    · rw [← List.length_pos_iff, List.length_drop]; omega
  · obtain ⟨init, x, hlast⟩ : ∃ init x, rest = init ++ [x] := ⟨_, _, (List.dropLast_concat_getLast hr).symm⟩
    have hturned : Execution.turned p rest = { p with after := none, exhausted := true } := by
      simp only [Execution.turned, hmore, if_false, Option.isNone_none]
    have hle : rest.length ≤ p.pageSize := by omega
    rw [hturned, List.take_of_length_le hle, hlast]
    exact .last hx rfl (hrest.symm.trans hlast) (hlast ▸ hle)

def Beyond (after : Option RowKey) (k : RowKey) : Prop := ∀ j ∈ after, compare j k = .lt

theorem beyond_of_lt {after : Option RowKey} {j k : RowKey} (h : Beyond after j) (hjk : compare j k = .lt) :
    Beyond after k := by
  intro i hi
  exact TransCmp.lt_trans (h i hi) hjk

/-- Rows at the start of those past a position: they are in the table, their keys go up, and those of the rows behind
    them are greater. -/
theorem keys_past {rows : Rows} (hw : Rows.WellFiled rows) {after : Option RowKey} {page later : List (RowKey × Entity)}
    (hr : rows.past after = page ++ later) :
    (page.map (·.2)).Pairwise (fun a b => compare a.key b.key = .lt) ∧
      ∀ e ∈ page.map (·.2), rows.get? e.key = some e ∧ Beyond after e.key ∧
        ∀ y ∈ later, compare e.key y.1 = .lt := by
  have hmem : ∀ x ∈ page, x ∈ rows.entries ∧ Beyond after x.1 := by
    intro x hx
    refine SortedMap.mem_past.mp ?_
    rw [hr]
    exact List.mem_append_left later hx
  have hkey : ∀ x ∈ page, x.2.key = x.1 := by
    intro x hx
    exact hw.key_of_mem (hmem x hx).1
  have hsorted := rows.past_sorted after
  rw [hr, List.pairwise_append] at hsorted
  obtain ⟨hpage, -, hacross⟩ := hsorted
  constructor
  · refine List.pairwise_map.mpr (hpage.imp_of_mem fun {a b} ha hb hab => ?_)
    rw [hkey a ha, hkey b hb]
    exact hab
  · intro e he
    obtain ⟨x, hx, rfl⟩ := List.mem_map.mp he
    rw [hkey x hx]
    exact ⟨SortedMap.get?_eq_some_iff.mpr (hmem x hx).1, (hmem x hx).2, hacross x hx⟩

namespace Fetched

variable {p after : Pager} {table : Option Rows} {answer : Except StoreError (Option (List Entity))}
  (hf : Fetched p table answer after)

include hf

theorem keeps : after.table = p.table ∧ after.pageSize = p.pageSize := by
  cases hf <;> exact ⟨rfl, rfl⟩

theorem refused {e : StoreError} (he : answer = .error e) :
    table = none ∧ e = .tableNotFound p.table ∧ after = p := by
  cases hf <;> cases he
  exact ⟨‹_›, rfl, rfl⟩

/-- A page has a row at least, and as many as a page can have if it does not end the scan. -/
theorem sized {page : List Entity} (hp : answer = .ok (some page)) :
    1 ≤ page.length ∧ page.length ≤ p.pageSize ∧ (page.length = p.pageSize ∨ after.exhausted = true) := by
  cases hf with
  | finished | missing | ended => cases hp
  | last hx ht hr hn =>
    cases hp
    rw [List.length_map]
    exact ⟨by simp, hn, Or.inr rfl⟩
  | more hx ht hr hn hl =>
    cases hp
    rw [List.length_map]
    exact ⟨by simp, hn.le, Or.inl hn⟩

variable (hw : ∀ rows, table = some rows → Rows.WellFiled rows)

include hw

/-- Rows are handed out as the table has them at that moment. -/
theorem current : ∀ e ∈ handed answer, table.bind (·.get? e.key) = some e := by
  cases hf with
  | finished | missing | ended => intro e he; cases he
  | last hx ht hr hn =>
    intro e he
    rw [ht, Option.bind_some]
    exact ((keys_past (hw _ ht) (hr.trans (List.append_nil _).symm)).2 e he).1
  | more hx ht hr hn hl =>
    intro e he
    rw [ht, Option.bind_some]
    exact ((keys_past (hw _ ht) (hr.trans (List.append_cons ..))).2 e he).1

/-- The keys of a page go up from past the position on, and the next position lies past them. -/
theorem increasing :
    (handed answer).Pairwise (fun a b => compare a.key b.key = .lt) ∧ (∀ e ∈ handed answer, Beyond p.after e.key) ∧
      (after.exhausted = false → ∀ k, Beyond after.after k →
        Beyond p.after k ∧ ∀ e ∈ handed answer, compare e.key k = .lt) := by
  cases hf with
  | finished hx | missing hx ht => exact ⟨.nil, by simp [handed], fun _ k hk => ⟨hk, by simp [handed]⟩⟩
  | ended hx ht hr => exact ⟨.nil, by simp [handed], by simp⟩
  | last hx ht hr hn =>
    obtain ⟨hpage, hrows⟩ := keys_past (hw _ ht) (hr.trans (List.append_nil _).symm)
    exact ⟨hpage, fun e he => (hrows e he).2.1, by simp⟩
  | @more rows init later x hx ht hr hn hl =>
    obtain ⟨hpage, hrows⟩ := keys_past (hw _ ht) (hr.trans (List.append_cons ..))
    obtain ⟨-, hinit⟩ := keys_past (hw _ ht) hr
    refine ⟨hpage, fun e he => (hrows e he).2.1, fun _ k hk => ?_⟩
    have hxk : compare x.1 k = .lt := hk x.1 rfl
    have hx : x ∈ rows.entries ∧ Beyond p.after x.1 := SortedMap.mem_past.mp (by rw [hr]; simp)
    refine ⟨beyond_of_lt hx.2 hxk, fun e he => ?_⟩
    rw [handed, List.map_append, List.mem_append] at he
    rcases he with he | he
    · exact TransCmp.lt_trans ((hinit e he).2.2 x List.mem_cons_self) hxk
    · obtain rfl : e = x.2 := List.mem_singleton.mp he
      rw [(hw _ ht).key_of_mem hx.1]
      exact hxk

/-- A fetch that finds a key past its position hands its row out, or leaves the key past its next position. -/
theorem covers {k : RowKey} (hx : p.exhausted = false) (hk : Beyond p.after k)
    (hp : answer.isOk = true → (table.bind (·.get? k)).isSome) :
    k ∈ (handed answer).map (·.key) ∨ (after.exhausted = false ∧ answer ≠ .ok none ∧ Beyond after.after k) := by
  have hpresent : ∀ rows, table = some rows → answer.isOk = true →
      ∃ row, row.key = k ∧ (k, row) ∈ rows.past p.after := by
    intro rows ht ha
    obtain ⟨row, hrow⟩ := Option.isSome_iff_exists.mp (hp ha)
    rw [ht, Option.bind_some] at hrow
    exact ⟨row, hw rows ht k row hrow, SortedMap.mem_past.mpr ⟨SortedMap.get?_eq_some_iff.mp hrow, hk⟩⟩
  cases hf with
  | finished hx' => rw [hx'] at hx; cases hx
  | missing hx ht => exact Or.inr ⟨hx, by simp, hk⟩
  | ended hx ht hr =>
    obtain ⟨row, -, hmem⟩ := hpresent _ ht rfl
    rw [hr] at hmem
    cases hmem
  | last hx ht hr hn =>
    obtain ⟨row, hrow, hmem⟩ := hpresent _ ht rfl
    rw [hr] at hmem
    exact Or.inl (List.mem_map.mpr ⟨row, List.mem_map_of_mem (f := (·.2)) hmem, hrow⟩)
  | more hx ht hr hn hl =>
    obtain ⟨row, hrow, hmem⟩ := hpresent _ ht rfl
    rw [hr, List.append_cons, List.mem_append] at hmem
    rcases hmem with hmem | hmem
    · exact Or.inl (List.mem_map.mpr ⟨row, List.mem_map_of_mem (f := (·.2)) hmem, hrow⟩)
    · rw [← SortedMap.past_past hr] at hmem
      exact Or.inr ⟨rfl, by simp, (SortedMap.mem_past.mp hmem).2⟩

/-- A scan stands at its end after its last page, and before that only if it did already. -/
theorem exhausted_iff : after.exhausted = true ↔ EndsScan table answer := by
  have hpast : ∀ {rows init later} {x : RowKey × Entity}, table = some rows → rows.past p.after = init ++ x :: later →
      rows.past (((init ++ [x]).map (·.2)).getLast?.map (·.key)) = later := by
    intro rows init later x hrows hr
    have hmem : x ∈ rows.past p.after := by rw [hr]; simp
    rw [List.map_append, List.map_singleton, List.getLast?_concat, Option.map_some,
      (hw rows hrows).key_of_mem (SortedMap.mem_past.mp hmem).1]
    exact SortedMap.past_past hr
  cases hf with
  | finished hx => simp [EndsScan, hx]
  | missing hx hn => simp [EndsScan, hx]
  | ended hx hrows hr => simp [EndsScan]
  | last hx hrows hr hn => exact iff_of_true rfl (Or.inr ⟨_, _, rfl, hrows, hpast hrows hr⟩)
  | more hx hrows hr hn hl =>
    refine iff_of_false Bool.false_ne_true ?_
    rintro (he | ⟨page, rows, he, hrows', hnone⟩)
    · cases he
    · cases he
      cases hrows.symm.trans hrows'
      exact hl ((hpast hrows hr).symm.trans hnone)

end Fetched

/-! ## one fetch after another -/

theorem ReachableFrom.performAll {σ : Type} [TableStore σ] {o s : σ} (h : ReachableFrom o s) (calls : List Call) :
    ReachableFrom o (performAll s calls) := by
  induction calls generalizing s with
  | nil => exact h
  | cons c r ih => exact ih (h.call c)

section

variable {σ : Type} [TableStore σ]

theorem answers_of_exhausted {p : Pager} (hx : p.exhausted = true) (s : σ) (stretches : List (List Call)) :
    (p.fetches s stretches).map Fetch.answer = List.replicate stretches.length (.ok none) := by
  induction stretches generalizing s with
  | nil => rfl
  | cons calls r ih =>
    simp only [Pager.fetches, Pager.nextPage, hx, if_true, List.map_cons, List.length_cons, List.replicate_succ]
    rw [ih]

theorem answer_of_exhausted {p : Pager} (hx : p.exhausted = true) {s : σ} {stretches : List (List Call)} {f : Fetch σ}
    (hf : f ∈ p.fetches s stretches) : f.answer = .ok none := by
  have hmem := List.mem_map_of_mem (f := Fetch.answer) hf
  rw [answers_of_exhausted hx] at hmem
  exact List.eq_of_mem_replicate hmem

theorem handedOut_of_exhausted {p : Pager} (hx : p.exhausted = true) (s : σ) (stretches : List (List Call)) :
    handedOut (p.fetches s stretches) = [] := by
  rw [handedOut, answers_of_exhausted hx, List.flatMap_eq_nil_iff]
  intro answer ha
  rw [List.eq_of_mem_replicate ha]
  rfl

variable [MemoryLike σ] {s : σ} (h : ReachableFrom (MemoryLike.empty : σ) s)

include h

theorem wellFiled_of_table {table : String} {rows : Rows} (ht : (MemoryLike.view s).tables.get? table = some rows) :
    Rows.WellFiled rows :=
  (MemoryStore.wellFiled_of_reachable (MemoryLike.view_reachable h)).rows ht

variable {p : Pager} (hs : 1 ≤ p.pageSize)

include hs

/-- What a pager gets from a store, which reads afterwards as it did. -/
theorem nextPage_fetched :
    Fetched p ((MemoryLike.view s).tables.get? p.table) (p.nextPage s).1 (p.nextPage s).2.1 ∧
      ReachableFrom (MemoryLike.empty : σ) (p.nextPage s).2.2 ∧
      MemoryLike.view (p.nextPage s).2.2 = MemoryLike.view s := by
  rcases hx : p.exhausted with _ | _
  · have hanswer := MemoryLike.answer_view h (.queryPage p.table p.pageSize p.after)
    have hview := MemoryLike.perform_view h (.queryPage p.table p.pageSize p.after)
    have hreach := h.call (.queryPage p.table p.pageSize p.after)
    rcases hq : TableStore.perform s (.queryPage p.table p.pageSize p.after) with ⟨answer, left⟩
    rw [hq] at hanswer hview hreach
    have hanswer : answer = (MemoryLike.view s).queryPage p.table p.pageSize p.after := hanswer
    rw [MemoryStore.queryPage] at hanswer
    rcases ht : (MemoryLike.view s).tables.get? p.table with _ | rows
    · rw [ht] at hanswer
      subst hanswer
      simp only [Pager.nextPage, hx, hq, Bool.false_eq_true, if_false]
      exact ⟨.missing hx rfl, hreach, hview⟩
    · rw [ht] at hanswer
      subst hanswer
      simp only [Pager.nextPage, hx, hq, Bool.false_eq_true, if_false]
      refine ⟨?_, hreach, hview⟩
      by_cases hr : rows.past p.after = []
      · rw [hr, List.map_nil, Execution.receive_empty]
        exact .ended hx rfl hr
      · rw [Execution.receive_page hs hr]
        exact fetched_page hx hs (wellFiled_of_table h ht) hr
  · simp only [Pager.nextPage, hx, if_true]
    exact ⟨.finished hx, h, trivial⟩

/-- The fetches of a scan are the first, from the store after the first calls, and those of the scan that it leaves. -/
theorem fetches_cons (calls : List Call) (r : List (List Call)) :
    ∃ f left, p.fetches s (calls :: r) = f :: f.after.fetches left r ∧ f.before = p ∧
      ReachableFrom (MemoryLike.empty : σ) f.store ∧ MemoryLike.view f.store = MemoryLike.view (performAll s calls) ∧
      Fetched p (f.table? p.table) f.answer f.after ∧ ReachableFrom (MemoryLike.empty : σ) left ∧
      MemoryLike.view left = MemoryLike.view (performAll s calls) := by
  obtain ⟨hf, hleft, hview⟩ := nextPage_fetched (h.performAll calls) hs
  exact ⟨⟨performAll s calls, p, (p.nextPage (performAll s calls)).2.1, (p.nextPage (performAll s calls)).1⟩,
    (p.nextPage (performAll s calls)).2.2, rfl, rfl, h.performAll calls, rfl, hf, hleft, hview⟩

theorem fetched_of_mem {stretches : List (List Call)} {f : Fetch σ} (hf : f ∈ p.fetches s stretches) :
    f.before.table = p.table ∧ f.before.pageSize = p.pageSize ∧
      Fetched f.before (f.table? p.table) f.answer f.after ∧
      ∀ rows, f.table? p.table = some rows → Rows.WellFiled rows := by
  induction stretches generalizing s p with
  | nil => cases hf
  | cons calls r ih =>
    obtain ⟨g, left, hcons, rfl, hstore, -, hg, hleft, -⟩ := fetches_cons h hs calls r
    rw [hcons, List.mem_cons] at hf
    rcases hf with rfl | hf
    · exact ⟨rfl, rfl, hg, fun rows ht => wellFiled_of_table hstore ht⟩
    · obtain ⟨htable, hsize⟩ := hg.keeps
      rw [← htable, ← hsize]
      exact ih hleft (hsize ▸ hs) hf

/-! ## whole scans -/

theorem handedOut_increasing (stretches : List (List Call)) :
    (handedOut (p.fetches s stretches)).Pairwise (fun a b => compare a.key b.key = .lt) ∧
      ∀ e ∈ handedOut (p.fetches s stretches), Beyond p.after e.key := by
  induction stretches generalizing s p with
  | nil => exact ⟨.nil, by intro e he; cases he⟩
  | cons calls r ih =>
    obtain ⟨f, left, hcons, rfl, hstore, -, hf, hleft, -⟩ := fetches_cons h hs calls r
    obtain ⟨hpage, hbeyond, hnext⟩ := hf.increasing fun rows ht => wellFiled_of_table hstore ht
    rw [hcons, handedOut_cons]
    rcases hx : f.after.exhausted with _ | _
    · obtain ⟨hlater, hpast⟩ := ih hleft (hf.keeps.2 ▸ hs)
      refine ⟨List.pairwise_append.mpr ⟨hpage, hlater, ?_⟩, ?_⟩
      · intro a ha b hb
        exact (hnext hx b.key (hpast b hb)).2 a ha
      · intro e he
        rcases List.mem_append.mp he with he | he
        · exact hbeyond e he
        · exact (hnext hx e.key (hpast e he)).1
    · rw [handedOut_of_exhausted hx, List.append_nil]
      exact ⟨hpage, hbeyond⟩

/-- A scan that comes to its end has handed out every key past its first position that was there at every successful
    fetch. -/
theorem mem_handedOut {stretches : List (List Call)} (hx : p.exhausted = false)
    (hend : ∃ f ∈ p.fetches s stretches, f.answer = .ok none) {k : RowKey} (hk : Beyond p.after k)
    (hp : ∀ f ∈ p.fetches s stretches, f.Successful → ((f.table? p.table).bind (·.get? k)).isSome) :
    k ∈ (handedOut (p.fetches s stretches)).map (·.key) := by
  induction stretches generalizing s p with
  | nil => obtain ⟨f, hf, -⟩ := hend; cases hf
  | cons calls r ih =>
    obtain ⟨f, left, hcons, rfl, hstore, -, hf, hleft, -⟩ := fetches_cons h hs calls r
    rw [hcons] at hend hp ⊢
    obtain ⟨hpf, hpr⟩ := List.forall_mem_cons.mp hp
    rw [handedOut_cons, List.map_append, List.mem_append]
    rcases hf.covers (fun rows ht => wellFiled_of_table hstore ht) hx hk (fun ha => hpf ⟨hx, ha⟩) with
      hin | ⟨hx', hne, hk'⟩
    · exact Or.inl hin
    · refine Or.inr (ih hleft (hf.keeps.2 ▸ hs) hx' ?_ hk' ?_)
      · obtain ⟨g, hg, ho⟩ := hend
        rcases List.mem_cons.mp hg with rfl | hg
        · exact absurd ho hne
        · exact ⟨g, hg, ho⟩
      · rw [hf.keeps.1]
        exact hpr

theorem nothing_after_last (stretches : List (List Call)) :
    (p.fetches s stretches).Pairwise fun f g => EndsScan (f.table? p.table) f.answer → g.answer = .ok none := by
  induction stretches generalizing s p with
  | nil => exact .nil
  | cons calls r ih =>
    obtain ⟨f, left, hcons, rfl, hstore, -, hf, hleft, -⟩ := fetches_cons h hs calls r
    rw [hcons]
    refine List.pairwise_cons.mpr ⟨fun g hg hlast => ?_, ?_⟩
    · rw [← hf.exhausted_iff fun rows ht => wellFiled_of_table hstore ht] at hlast
      exact answer_of_exhausted hlast hg
    · rw [← hf.keeps.1]
      exact ih hleft (hf.keeps.2 ▸ hs)

/-! ## a table that stays as it is -/

omit hs in
theorem table_performAll {table : String} {calls : List Call} (hc : ∀ c ∈ calls, c.isRead = true ∨ c.table ≠ table) :
    (MemoryLike.view (performAll s calls)).tables.get? table = (MemoryLike.view s).tables.get? table := by
  induction calls generalizing s with
  | nil => rfl
  | cons c r ih =>
    obtain ⟨hc, hr⟩ := List.forall_mem_cons.mp hc
    refine (ih (h.call c) hr).trans ?_
    rw [MemoryLike.perform_view h]
    rcases hc with hread | htable
    · cases c <;> first | rfl | cases hread
    · exact MemoryStore.perform_frame _ c (Ne.symm htable)

/-- The answers of a scan of a table that stays as it is: page by page the rows past the position, and then the end. -/
theorem answers_undisturbed (hx : p.exhausted = false) {rows : Rows}
    (ht : (MemoryLike.view s).tables.get? p.table = some rows) {stretches : List (List Call)}
    (hc : ∀ calls ∈ stretches, ∀ c ∈ calls, c.isRead = true ∨ c.table ≠ p.table) {n : Nat}
    (hn : stretches.length ≤ n) :
    (p.fetches s stretches).map Fetch.answer =
      (pageByPage p.pageSize ((rows.past p.after).map (·.2)) n).take stretches.length := by
  induction stretches generalizing s p with
  | nil => rfl
  | cons calls r ih =>
    obtain ⟨hcalls, hr⟩ := List.forall_mem_cons.mp hc
    rw [List.length_cons] at hn
    obtain ⟨⟨store, before, after, answer⟩, left, hcons, -, -, hsame, hf, hleft, hview⟩ := fetches_cons h hs calls r
    have hnow : (⟨store, before, after, answer⟩ : Fetch σ).table? p.table = some rows := by
      rw [Fetch.table?, hsame, table_performAll h hcalls, ht]
    have hlater : (MemoryLike.view left).tables.get? p.table = some rows := by
      rw [hview, table_performAll h hcalls, ht]
    have hf : Fetched p (some rows) answer after := hnow ▸ hf
    rw [hcons, List.map_cons, List.length_cons]
    cases hf with
    | finished hx' => rw [hx'] at hx; cases hx
    | missing _ hnone => cases hnone
    | ended _ ht' hend =>
      cases ht'
      rw [answers_of_exhausted rfl, hend]
      simp [pageByPage, pieces, List.take_replicate, hn, ← List.replicate_succ]
    | @last _ init x _ ht' hend hsize =>
      cases ht'
      have hpieces := pieces_append (l := []) (p := (init ++ [x]).map (·.2)) (by simp) (by simpa using hsize) (by simp)
      rw [List.append_nil] at hpieces
      rw [answers_of_exhausted rfl, hend, pageByPage, hpieces]
      simp [pieces, List.take_replicate]
      omega
    | @more _ init later x _ ht' hmore hsize hl =>
      cases ht'
      have hpieces := pieces_append (l := later.map (·.2)) (p := (init ++ [x]).map (·.2)) (by simp)
        (by simpa using hsize.le) (by simpa using fun _ => hsize)
      rw [← List.map_append, ← List.append_cons, ← hmore] at hpieces
      have hrest := ih (p := { p with after := some x.1, exhausted := false }) hleft hs rfl hlater hr
        (Nat.le_of_succ_le hn)
      rw [SortedMap.past_past hmore] at hrest
      rw [hrest, pageByPage, pageByPage, hpieces]
      rfl

end

/-- What a scan owes, whatever is done to the table between its fetches. -/
structure Thorough {σ : Type} [TableStore σ] [MemoryLike σ] (table : String) (size : Nat) (log : List (Fetch σ)) :
    Prop where
  /-- The keys that are handed out go up, whichever page they come on. -/
  increasing : (handedOut log).Pairwise fun a b => compare a.key b.key = .lt
  /-- A row is handed out as it is stored when its page is fetched. -/
  current : ∀ f ∈ log, ∀ e ∈ handed f.answer, (f.table? table).bind (·.get? e.key) = some e
  /-- Once the scan has come to its end, each key that was there at every successful fetch has been handed out once. -/
  complete : (∃ f ∈ log, f.answer = .ok none) → ∀ k,
    (∀ f ∈ log, f.Successful → ((f.table? table).bind (·.get? k)).isSome) → ((handedOut log).map (·.key)).count k = 1
  /-- A page has rows, no more than fit on it, and as many as fit unless it is the last. -/
  sized : ∀ f ∈ log, ∀ page, f.answer = .ok (some page) → 1 ≤ page.length ∧ page.length ≤ max size 1 ∧
    (page.length = max size 1 ∨ EndsScan (f.table? table) f.answer)
  /-- A fetch fails only for want of the table, and leaves the scan where it was. -/
  refused : ∀ f ∈ log, ∀ e, f.answer = .error e → f.table? table = none ∧ e = .tableNotFound table ∧ f.after = f.before
  /-- Nothing comes after the last page. -/
  finished : log.Pairwise fun f g => EndsScan (f.table? table) f.answer → g.answer = .ok none

def threeRows : MemoryStore :=
  performAll .empty [.ensureTable "t",
    .submitBatch "t" "p" [⟨.add, .bare ⟨"p", "a"⟩⟩, ⟨.add, .bare ⟨"p", "b"⟩⟩, ⟨.add, .bare ⟨"p", "d"⟩⟩]]

/-- The row that was handed out last goes and another comes; the table goes, and comes back with what was handed out
    and what was not; a row comes after the last page. -/
def disturbances : List (List Call) :=
  [[], [.submitBatch "t" "p" [⟨.delete, .bare ⟨"p", "a"⟩⟩, ⟨.add, .bare ⟨"p", "c"⟩⟩]], [.deleteTable "t"],
    [.ensureTable "t", .submitBatch "t" "p" [⟨.add, .bare ⟨"p", "a"⟩⟩, ⟨.add, .bare ⟨"p", "d"⟩⟩]],
    [.submitBatch "t" "p" [⟨.add, .bare ⟨"p", "e"⟩⟩]]]

end TableMigrations
