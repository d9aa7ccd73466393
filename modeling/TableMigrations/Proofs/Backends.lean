/-
  TableMigrations.Proofs.Backends — what is proved of memory stores holds of any store that answers as they do.

  `MemoryLike` is what a store owes: a reading of its states as memory stores under which every call answers alike. A
  process then makes the same calls and ends alike on both (`follow_view`), whatever befalls it. Memory stores
  and durable stores are such stores.
-/
import TableMigrations.Proofs.Durable
import TableMigrations.Proofs.Execution

namespace TableMigrations

/-- A store whose states, as far as calls lead to them, read as those of a memory store that answers every call
    alike. -/
class MemoryLike (σ : Type) [TableStore σ] where
  empty : σ
  view : σ → MemoryStore
  view_empty : view empty = .empty
  answer_view {s : σ} (h : ReachableFrom empty s) (c : Call) :
    (TableStore.perform s c).1 = (TableStore.perform (view s) c).1
  perform_view {s : σ} (h : ReachableFrom empty s) (c : Call) :
    view (TableStore.perform s c).2 = (TableStore.perform (view s) c).2
  rowTotal_view {s : σ} (h : ReachableFrom empty s) : TableStore.rowTotal s = TableStore.rowTotal (view s)

instance : MemoryLike MemoryStore where
  empty := .empty
  view := id
  view_empty := rfl
  answer_view _ _ := rfl
  perform_view _ _ := rfl
  rowTotal_view _ := rfl

instance : MemoryLike DurableStore where
  empty := .empty
  view := DurableStore.view
  view_empty := rfl
  answer_view {s} _ c := s.answer_view c
  perform_view h c := DurableStore.perform_view (DurableStore.registered_of_reachable h) c
  rowTotal_view h := DurableStore.rowTotal_view (DurableStore.registered_of_reachable h)

/-- A store that keeps nothing but what is read: states that calls lead to and that read alike are the same. -/
class Transparent (σ : Type) [TableStore σ] [MemoryLike σ] : Prop where
  eq_of_view {s t : σ} (hs : ReachableFrom (MemoryLike.empty : σ) s) (ht : ReachableFrom (MemoryLike.empty : σ) t)
    (h : MemoryLike.view s = MemoryLike.view t) : s = t

instance : Transparent MemoryStore where
  eq_of_view _ _ h := h

instance : Transparent DurableStore where
  eq_of_view hs ht h :=
    DurableStore.eq_of_view (DurableStore.registered_of_reachable hs) (DurableStore.registered_of_reachable ht) h

section

variable {σ η : Type} [TableStore σ] [TableStore η] [MemoryLike σ] [MemoryLike η]

theorem MemoryLike.view_reachable {s : σ} (h : ReachableFrom (MemoryLike.empty : σ) s) :
    ReachableFrom MemoryStore.empty (MemoryLike.view s) := by
  induction h with
  | refl => rw [MemoryLike.view_empty]; exact .refl
  | call h c ih => rw [MemoryLike.perform_view h]; exact ih.call c

namespace Stores

def Reachable : Stores σ η → Prop
  | .shared s => ReachableFrom MemoryLike.empty s
  | .separate s h => ReachableFrom MemoryLike.empty s ∧ ReachableFrom MemoryLike.empty h

def view : Stores σ η → Stores MemoryStore MemoryStore
  | .shared s => .shared (MemoryLike.view s)
  | .separate s h => .separate (MemoryLike.view s) (MemoryLike.view h)

variable {stores : Stores σ η} (h : stores.Reachable)

include h

theorem Reachable.perform (target : Target) (c : Call) : (stores.perform target c).2.Reachable := by
  cases stores with
  | shared s => exact ReachableFrom.call h c
  | separate s l =>
    cases target with
    | data => exact ⟨h.1.call c, h.2⟩
    | ledger => exact ⟨h.1, h.2.call c⟩

theorem view_reachable : stores.view.Reachable := by
  cases stores with
  | shared s => exact MemoryLike.view_reachable h
  | separate s l => exact ⟨MemoryLike.view_reachable h.1, MemoryLike.view_reachable h.2⟩

theorem answer_view (target : Target) (c : Call) :
    (stores.perform target c).1 = (stores.view.perform target c).1 := by
  cases stores with
  | shared s => exact MemoryLike.answer_view h c
  | separate s l =>
    cases target with
    | data => exact MemoryLike.answer_view h.1 c
    | ledger => exact MemoryLike.answer_view h.2 c

theorem perform_view (target : Target) (c : Call) :
    (stores.perform target c).2.view = (stores.view.perform target c).2 := by
  cases stores with
  | shared s => exact congrArg Stores.shared (MemoryLike.perform_view h c)
  | separate s l =>
    cases target with
    | data => exact congrArg (Stores.separate · (MemoryLike.view l)) (MemoryLike.perform_view h.1 c)
    | ledger => exact congrArg (Stores.separate (MemoryLike.view s)) (MemoryLike.perform_view h.2 c)

theorem rowTotal_view : stores.rowTotal = stores.view.rowTotal := by
  cases stores with
  | shared s => exact MemoryLike.rowTotal_view h
  | separate s l =>
    show TableStore.rowTotal s + TableStore.rowTotal l = _ + _
    rw [MemoryLike.rowTotal_view h.1, MemoryLike.rowTotal_view h.2]

/-- Rows are added only by the writes of a batch. -/
theorem rowTotal_perform (target : Target) (c : Call) :
    (stores.perform target c).2.rowTotal ≤ stores.rowTotal + c.writes := by
  rw [rowTotal_view (h.perform target c), perform_view h, rowTotal_view h]
  cases stores with
  | shared s => exact MemoryStore.rowTotal_perform _ c
  | separate s l =>
    cases target with
    | data =>
      have := MemoryStore.rowTotal_perform (MemoryLike.view s) c
      show TableStore.rowTotal (TableStore.perform (MemoryLike.view s) c).2 + TableStore.rowTotal (MemoryLike.view l) ≤
        TableStore.rowTotal (MemoryLike.view s) + TableStore.rowTotal (MemoryLike.view l) + c.writes
      omega
    | ledger =>
      have := MemoryStore.rowTotal_perform (MemoryLike.view l) c
      show TableStore.rowTotal (MemoryLike.view s) + TableStore.rowTotal (TableStore.perform (MemoryLike.view l) c).2 ≤
        TableStore.rowTotal (MemoryLike.view s) + TableStore.rowTotal (MemoryLike.view l) + c.writes
      omega

theorem view_wellFiled : stores.view.data.WellFiled := by
  cases stores with
  | shared s => exact MemoryStore.wellFiled_of_reachable (MemoryLike.view_reachable h)
  | separate s l => exact MemoryStore.wellFiled_of_reachable (MemoryLike.view_reachable h.1)

omit h in
theorem wellFiled {stores : Stores MemoryStore η} (h : stores.Reachable) : stores.data.WellFiled := by
  have := view_wellFiled h
  cases stores <;> exact this

omit h in
theorem eq_of_view [Transparent σ] [Transparent η] {s t : Stores σ η} (hs : s.Reachable) (ht : t.Reachable)
    (h : s.view = t.view) : s = t := by
  cases s <;> cases t <;> simp only [view, Stores.shared.injEq, Stores.separate.injEq, reduceCtorEq] at h
  · exact congrArg Stores.shared (Transparent.eq_of_view hs ht h)
  · obtain ⟨hdata, hledger⟩ := h
    rw [Transparent.eq_of_view hs.1 ht.1 hdata, Transparent.eq_of_view hs.2 ht.2 hledger]

theorem perform_read [Transparent σ] [Transparent η] (target : Target) {c : Call} (hc : c.isRead = true) :
    (stores.perform target c).2 = stores := by
  apply eq_of_view (h.perform target c) h
  rw [perform_view h]
  cases stores <;> cases target <;> cases c <;> first | rfl | cases hc

end Stores

/-! ## processes -/

def Course.view {α : Type} (c : Course σ η α) : Course MemoryStore MemoryStore α := { c with stores := c.stores.view }

/-- Stores and the memory stores that they read as answer every call alike. -/
theorem answerAlike_view :
    AnswerAlike (fun (s : Stores σ η) s' => s.Reachable ∧ s.view = s') fun _ => True := by
  rintro s _ ⟨h, rfl⟩ target c -
  exact ⟨Stores.answer_view h target c, h.perform target c, Stores.perform_view h target c⟩

theorem performUnder_view {stores : Stores σ η} (h : stores.Reachable) (cond : Conditions) (made : Nat)
    (target : Target) (c : Call) :
    (performUnder cond made stores target c).1 = (performUnder cond made stores.view target c).1 ∧
      (performUnder cond made stores target c).2.view = (performUnder cond made stores.view target c).2 ∧
      (performUnder cond made stores target c).2.Reachable := by
  obtain ⟨hanswer, hreach, hview⟩ := answerAlike_view.performUnder cond made ⟨h, rfl⟩ (c := c) trivial
  exact ⟨hanswer, hview, hreach⟩

theorem Stores.Reachable.replay {stores : Stores σ η} (h : stores.Reachable) (cond : Conditions) (made : Nat)
    (calls : List (Target × Call)) : (stores.replay cond made calls).Reachable := by
  induction calls generalizing stores made with
  | nil => exact h
  | cons x r ih => exact ih (performUnder_view h cond made x.1 x.2).2.2 (made + 1)

/-- A process makes the same calls on stores and on the memory stores that they read as, and ends alike. -/
theorem follow_view {π α : Type} [Process π α] (text : String → Except FileError String) (cond : Conditions)
    (fuel : Nat) (a : Config σ η π) (h : a.stores.Reachable) :
    (a.follow (fun _ => text) cond fuel).view =
        Config.follow (fun _ => text) cond fuel ⟨a.made, a.stores.view, a.state⟩ ∧
      (a.follow (fun _ => text) cond fuel).stores.Reachable := by
  obtain ⟨hcalls, houtcome, hreach, hview⟩ :=
    follow_alike answerAlike_view text cond (I := fun _ : π => True) (fun _ _ => trivial) (fun _ _ => trivial) fuel
      ⟨h, rfl⟩ trivial
  refine ⟨?_, hreach⟩
  rw [Course.view, hcalls, houtcome, hview]

/-! ## executions -/

/-- An execution on stores is the execution on the memory stores that they read as. -/
theorem execute_view (cond : Conditions) (limits : Limits) (ops : List Operation) {stores : Stores σ η}
    (h : stores.Reachable) :
    (execute cond limits ops stores).view = execute cond limits ops stores.view ∧
      (execute cond limits ops stores).stores.Reachable := by
  unfold execute
  rw [Stores.rowTotal_view h]
  exact follow_view (fun _ => .error .notFound) cond _ ⟨0, stores, Execution.start limits ops⟩ h

/-- An execution ends, and adds no more rows than it has operations if it succeeds. -/
theorem execute_ends {limits : Limits} (hl : limits.Sound) (ops : List Operation) {stores : Stores σ η}
    (h : stores.Reachable) :
    (∃ stats, (execute .calm limits ops stores).outcome = some (.ok stats) ∧
      (execute .calm limits ops stores).stores.rowTotal ≤ stores.rowTotal + ops.length) ∨
    ∃ e, (execute .calm limits ops stores).outcome = some (.error (.store e)) := by
  obtain ⟨hv, hr⟩ := execute_view .calm limits ops h
  have houtcome : (execute .calm limits ops stores).outcome = (execute .calm limits ops stores.view).outcome :=
    congrArg Course.outcome hv
  rcases execute_effects hl (Stores.view_wellFiled h) ops with
    ⟨after, calls, stats, he, hx⟩ | ⟨-, calls, after, e, hx⟩
  · refine Or.inl ⟨stats, by rw [houtcome, hx], ?_⟩
    have hstores : (execute .calm limits ops stores).stores.view = stores.view.withData after :=
      (congrArg Course.stores hv).trans (congrArg Course.stores hx)
    rw [Stores.rowTotal_view hr, Stores.rowTotal_view h, hstores]
    have := stores.view.rowTotal_withData after
    have := effects_rowTotal he
    have := writes_planSteps limits ops
    omega
  · exact Or.inr ⟨e, by rw [houtcome, hx]⟩

end

end TableMigrations
