/-
  TableMigrations.Proofs.Calls — the calls of a run whose operations leave the ledger alone.

  `Orderly` lists them: the ledger's table is made sure of, a migration is looked up or recorded, or the data store is
  called about another table. Of all these only a migration's own record changes whether it is recorded, and nothing
  takes a record away (`records_replay`).
-/
import TableMigrations.Proofs.History
import TableMigrations.Proofs.Turns

namespace TableMigrations

/-! ## the ledger under a run's calls -/

inductive Asked (options : Options) (P : Call → Prop) : Target × Call → Prop
  | ensure : Asked options P (.ledger, .ensureTable options.historyTable)
  | lookup (id : String) : Asked options P (options.lookup id)
  | record (id : String) : Asked options P (options.record id)
  | data {c : Call} (h : P c) : Asked options P (.data, c)

abbrev Orderly (options : Options) (shared : Bool) : Target × Call → Prop :=
  Asked options fun c => shared = true → c.table ≠ options.historyTable

section

variable {σ η : Type} [TableStore σ] [TableStore η] [MemoryLike σ] [MemoryLike η] {options : Options}

/-- An attempt to record a migration leaves it recorded, and the others as they were. -/
theorem records_record {stores : Stores σ η} (h : stores.Reachable)
    (ht : stores.ledgerTable options.historyTable ≠ none) (id j : String) :
    (stores.perform .ledger (options.record id).2).2.ledgerTable options.historyTable ≠ none ∧
      ((stores.perform .ledger (options.record id).2).2.records options.historyTable j = true ↔
        stores.records options.historyTable j = true ∨ j = id) := by
  obtain ⟨rows, hrows⟩ := Option.ne_none_iff_exists'.mp ht
  have hreach := h.perform .ledger (options.record id).2
  rcases hr : rows.get? (historyKey id) with _ | row
  · obtain ⟨-, hafter⟩ := Stores.record_ledgerTable h options.historyTable hrows hr
    refine ⟨by simp [hafter], ?_⟩
    rw [recorded_one h hreach hrows hafter j, List.mem_singleton]
  · have hknown : rows.get? (historyKey id) ≠ none := by simp [hr]
    obtain ⟨-, hafter⟩ := Stores.record_known h options.historyTable hrows hknown
    refine ⟨by simp [hafter], ?_⟩
    rw [records_of_ledgerTable hreach hafter, records_of_ledgerTable h hrows]
    constructor
    · intro hj; exact Or.inl hj
    · rintro (hj | rfl)
      · exact hj
      · rw [hr]; rfl

/-- A call that a run makes records a migration if it is its record, and nothing else does. -/
theorem records_orderly {stores : Stores σ η} (h : stores.Reachable)
    (ht : stores.ledgerTable options.historyTable ≠ none) {x : Target × Call} (hx : Orderly options stores.isShared x)
    (id : String) :
    (stores.perform x.1 x.2).2.ledgerTable options.historyTable ≠ none ∧
      ((stores.perform x.1 x.2).2.records options.historyTable id = true ↔
        stores.records options.historyTable id = true ∨ options.record id = x) := by
  cases hx with
  | ensure =>
    refine ⟨by rw [(Stores.ensure_ledgerTable h options.historyTable).2]; simp, ?_⟩
    rw [records_ensureTable h]
    simp [Options.record]
  | lookup j =>
    have hsame := (Stores.lookup_ledgerTable h options.historyTable (historyKey j)).2
    refine ⟨by rw [hsame]; exact ht, ?_⟩
    rw [Stores.records_eq (h.perform .ledger (options.lookup j).2), Stores.records_eq h, hsame]
    simp [Options.record, Options.lookup]
  | record j =>
    obtain ⟨ht', hrecords⟩ := records_record h ht j id
    refine ⟨ht', hrecords.trans (or_congr_right ?_)⟩
    constructor
    · intro he; rw [he]
    · intro he; cases he; rfl
  | data hc =>
    have hsame := Stores.data_ledgerTable h options.historyTable hc
    refine ⟨by rw [hsame]; exact ht, ?_⟩
    rw [Stores.records_eq (h.perform .data _), Stores.records_eq h, hsame]
    simp [Options.record]

/-- After such calls the ledger's table is there, with the records that there were and those that have been written. -/
theorem records_replay {stores : Stores σ η} (h : stores.Reachable)
    (ht : stores.ledgerTable options.historyTable ≠ none) {calls : List (Target × Call)}
    (hc : ∀ x ∈ calls, Orderly options stores.isShared x) (made : Nat) :
    (stores.replay .calm made calls).ledgerTable options.historyTable ≠ none ∧
      ∀ id, (stores.replay .calm made calls).records options.historyTable id = true ↔
        stores.records options.historyTable id = true ∨ options.record id ∈ calls := by
  induction calls generalizing stores made with
  | nil => exact ⟨ht, by simp [Stores.replay]⟩
  | cons x r ih =>
    obtain ⟨hx, hr⟩ := List.forall_mem_cons.mp hc
    have hone := records_orderly h ht hx
    have hafter : (performUnder .calm made stores x.1 x.2).2 = (stores.perform x.1 x.2).2 := rfl
    rw [← stores.isShared_perform x.1 x.2] at hr
    obtain ⟨hpresent, hrecords⟩ := ih (h.perform x.1 x.2) (hone "").1 hr (made + 1)
    rw [Stores.replay, hafter]
    refine ⟨hpresent, ?_⟩
    intro id
    rw [hrecords, (hone id).2, List.mem_cons, or_assoc]

end

/-! ## the calls of migrations one after another -/

section

variable {σ η : Type} [TableStore σ] [TableStore η] {text : String → Except FileError String} {options : Options}

def CallFor (text : String → Except FileError String) (options : Options) (m : MigrationFile) (x : Target × Call) :
    Prop :=
  x = options.lookup m.id ∨ x = options.record m.id ∨
    ∃ ops, m.operations (text m.path) = .ok ops ∧ x.1 = .data ∧ x.2.table ∈ ops.map (·.table)

theorem mem_visit_calls {stores : Stores σ η} {m : MigrationFile} {x : Target × Call}
    (hx : x ∈ (visit text options stores m).calls) : CallFor text options m x := by
  simp only [visit, Course.after, List.cons_append, List.nil_append, List.mem_cons] at hx
  rcases hx with hx | hx
  · exact Or.inl hx
  rcases hp : stores.perform .ledger (.getEntity options.historyTable (historyKey m.id)) with ⟨e | _ | row, after⟩
  · simp only [hp] at hx; cases hx
  · rcases hops : m.operations (text m.path) with e | ops
    · simp only [hp, hops] at hx; cases hx
    · have hwork : x ∈ (execute .calm options.limits ops after).calls → CallFor text options m x := by
        intro hx
        exact Or.inr (Or.inr ⟨ops, hops, mem_execute_calls hx⟩)
      simp only [hp, hops, applyAndRecord] at hx
      rcases ho : (execute .calm options.limits ops after).outcome with _ | e | stats
      · simp only [ho] at hx; exact hwork hx
      · simp only [ho] at hx; exact hwork hx
      · simp only [ho] at hx
        rcases List.mem_append.mp hx with hx | hx
        · exact hwork hx
        · exact Or.inr (Or.inl (List.mem_singleton.mp hx))
  · simp only [hp] at hx; cases hx

theorem visit_stores (stores : Stores σ η) (m : MigrationFile) :
    (visit text options stores m).stores = stores.replay .calm 0 (visit text options stores m).calls := by
  have hwork : ∀ (ops : List Operation) (s : Stores σ η), (execute .calm options.limits ops s).stores =
      s.replay .calm 0 (execute .calm options.limits ops s).calls := by
    intro ops s
    exact follow_stores (fun _ _ => .error .notFound) .calm _ ⟨0, s, Execution.start options.limits ops⟩
  have hlookup : ∀ (c : Course σ η Bool) (after : Stores σ η),
      (stores.perform .ledger (options.lookup m.id).2).2 = after → c.stores = after.replay .calm 0 c.calls →
      (c.after [options.lookup m.id]).stores = stores.replay .calm 0 (c.after [options.lookup m.id]).calls := by
    intro c after ha hc
    show c.stores = (stores.perform .ledger (options.lookup m.id).2).2.replay .calm 1 c.calls
    rw [ha, hc]
    exact Stores.replay_calm 0 1 after c.calls
  simp only [visit]
  rcases hp : stores.perform .ledger (.getEntity options.historyTable (historyKey m.id)) with ⟨e | _ | row, after⟩
  · exact hlookup _ after (congrArg Prod.snd hp) rfl
  · rcases hops : m.operations (text m.path) with e | ops
    · exact hlookup _ after (congrArg Prod.snd hp) rfl
    · refine hlookup _ after (congrArg Prod.snd hp) ?_
      simp only [applyAndRecord]
      rcases ho : (execute .calm options.limits ops after).outcome with _ | e | stats
      · exact hwork ops after
      · exact hwork ops after
      · show _ = after.replay .calm 0 ((execute .calm options.limits ops after).calls ++ [options.record m.id])
        rw [Stores.replay_append, ← hwork]
        rfl
  · exact hlookup _ after (congrArg Prod.snd hp) rfl

theorem mem_account_calls {migrations : List MigrationFile} {summary : Summary} {stores : Stores σ η}
    {x : Target × Call} (hx : x ∈ (account text options migrations summary stores).calls) :
    ∃ m ∈ migrations, CallFor text options m x := by
  induction migrations generalizing summary stores with
  | nil => cases hx
  | cons m r ih =>
    have hturn : x ∈ (visit text options stores m).calls → ∃ m' ∈ m :: r, CallFor text options m' x := by
      intro hx
      exact ⟨m, List.mem_cons_self, mem_visit_calls hx⟩
    rcases ho : (visit text options stores m).outcome with _ | e | applied
    · simp only [account, ho] at hx; exact hturn hx
    · simp only [account, ho] at hx; exact hturn hx
    · simp only [account, ho, Course.after, List.mem_append] at hx
      rcases hx with hx | hx
      · exact hturn hx
      · obtain ⟨m', hm', hcall⟩ := ih hx
        exact ⟨m', List.mem_cons_of_mem _ hm', hcall⟩

omit [TableStore σ] [TableStore η] in
theorem CallFor.orderly {stores : Stores σ η} {m : MigrationFile} {x : Target × Call} (h : CallFor text options m x)
    (hl : Unobtrusive text stores options.historyTable m) : Orderly options stores.isShared x := by
  rcases h with rfl | rfl | ⟨ops, hops, hdata, htable⟩
  · exact .lookup m.id
  · exact .record m.id
  · obtain ⟨target, c⟩ := x
    cases hdata
    obtain ⟨op, hop, he⟩ := List.mem_map.mp htable
    refine .data ?_
    intro hs
    rw [← he]
    exact hl ops hops hs op hop

theorem orderly_account {migrations : List MigrationFile} {summary : Summary} {stores s : Stores σ η}
    (hl : ∀ m ∈ migrations, Unobtrusive text stores options.historyTable m) :
    ∀ x ∈ (account text options migrations summary s).calls, Orderly options stores.isShared x := by
  intro x hx
  obtain ⟨m, hm, hcall⟩ := mem_account_calls hx
  exact hcall.orderly (hl m hm)

/-- Every call of a run whose operations leave the ledger alone is one of those that do. -/
theorem orderly_turns {migrations : List MigrationFile} {stores : Stores σ η}
    (hl : ∀ m ∈ migrations, Unobtrusive text stores options.historyTable m) :
    ∀ x ∈ (turns text options migrations stores).calls, Orderly options stores.isShared x := by
  intro x hx
  rcases List.mem_cons.mp hx with rfl | hx
  · exact .ensure
  · exact orderly_account hl x hx

end

end TableMigrations
