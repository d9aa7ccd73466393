/-
  TableMigrations.Proofs.Process — transitions of a process, and what `follow` makes of them.

  `Transition` and `Ends` say what one turn of `follow` does under given conditions: it leads on to another state with
  at most one call, or it ends the process. `Path` is a number of transitions in a row. `follow` goes along a path and
  then does what it does from the path's end (`Path.follow_eq`); an outcome is always that of an end that a path leads
  to (`follow_ends`), so more fuel never changes it (`follow_mono`). What its states ask for and lead to (`Next.All`)
  holds of all that it does (`follow_all`).

  Cancellation is looked at in two places and changes nothing else. `follow_cancelled` compares a process that is
  cancelled with the same one that is not; `Path.under` carries a path over to other conditions that let its calls
  pass. And where two kinds of stores answer the same calls alike, it does not matter which of them a process works
  with (`follow_alike`).
-/
import TableMigrations.Process

namespace TableMigrations

namespace Stores

variable {σ η : Type}

def withData : Stores σ η → σ → Stores σ η
  | .shared _, s => .shared s
  | .separate _ h, s => .separate s h

@[simp] theorem data_withData (stores : Stores σ η) (s : σ) : (stores.withData s).data = s := by
  cases stores <;> rfl

@[simp] theorem withData_withData (stores : Stores σ η) (s s' : σ) :
    (stores.withData s).withData s' = stores.withData s' := by
  cases stores <;> rfl

@[simp] theorem withData_data (stores : Stores σ η) : stores.withData stores.data = stores := by
  cases stores <;> rfl

theorem perform_data [TableStore σ] [TableStore η] (stores : Stores σ η) (c : Call) :
    stores.perform .data c =
      ((TableStore.perform stores.data c).1, stores.withData (TableStore.perform stores.data c).2) := by
  cases stores <;> rfl

theorem rowTotal_withData [TableStore σ] [TableStore η] (stores : Stores σ η) (s : σ) :
    (stores.withData s).rowTotal + TableStore.rowTotal stores.data = stores.rowTotal + TableStore.rowTotal s := by
  cases stores with
  | shared d =>
    show TableStore.rowTotal s + TableStore.rowTotal d = TableStore.rowTotal d + TableStore.rowTotal s
    omega
  | separate d l =>
    show TableStore.rowTotal s + TableStore.rowTotal l + TableStore.rowTotal d =
      TableStore.rowTotal d + TableStore.rowTotal l + TableStore.rowTotal s
    omega

end Stores

structure Config (σ η π : Type) where
  made : Nat
  stores : Stores σ η
  state : π

def Course.after {σ η α : Type} (calls : List (Target × Call)) (c : Course σ η α) : Course σ η α :=
  { c with calls := calls ++ c.calls }

@[simp] theorem Course.after_nil {σ η α : Type} (c : Course σ η α) : c.after [] = c := rfl

theorem Course.after_after {σ η α : Type} (l m : List (Target × Call)) (c : Course σ η α) :
    (c.after m).after l = c.after (l ++ m) := by
  simp [Course.after]

section

variable {σ η π α : Type} [TableStore σ] [TableStore η] [Process π α]

abbrev Config.follow (files : FileReader σ) (cond : Conditions) (fuel : Nat) (a : Config σ η π) : Course σ η α :=
  TableMigrations.follow files cond fuel a.made a.stores a.state

variable (files : FileReader σ) (cond : Conditions)

/-- One transition, with the call it makes if it makes one. -/
inductive Transition : Config σ η π → List (Target × Call) → Config σ η π → Prop
  | checkpoint {a : Config σ η π} {go : π} (hn : Process.next a.state = .checkpoint go)
      (hc : cond.cancelled a.made = false) : Transition a [] { a with state := go }
  | call {a : Config σ η π} {guarded : Bool} {target : Target} {c : Call}
      {resume : Except StoreError c.Result → Except MigrateError π} {p : π}
      (hn : Process.next a.state = .call guarded target c resume) (hc : (guarded && cond.cancelled a.made) = false)
      (hr : resume (performUnder cond a.made a.stores target c).1 = .ok p) :
      Transition a [(target, c)] ⟨a.made + 1, (performUnder cond a.made a.stores target c).2, p⟩
  | read {a : Config σ η π} {path : String} {resume : Except FileError String → Except MigrateError π} {p : π}
      (hn : Process.next a.state = .read path resume) (hr : resume (files a.stores.data path) = .ok p) :
      Transition a [] { a with state := p }

/-- The last turn: the calls it makes, the stores after it, and the outcome. -/
inductive Ends : Config σ η π → List (Target × Call) → Stores σ η → Except MigrateError α → Prop
  | done {a : Config σ η π} {outcome : Except MigrateError α} (hn : Process.next a.state = .done outcome) :
      Ends a [] a.stores outcome
  | stopped {a : Config σ η π} {go : π} (hn : Process.next a.state = .checkpoint go)
      (hc : cond.cancelled a.made = true) : Ends a [] a.stores (.error .cancelled)
  | withheld {a : Config σ η π} {guarded : Bool} {target : Target} {c : Call}
      {resume : Except StoreError c.Result → Except MigrateError π}
      (hn : Process.next a.state = .call guarded target c resume) (hc : (guarded && cond.cancelled a.made) = true) :
      Ends a [] a.stores (.error .cancelled)
  | refused {a : Config σ η π} {guarded : Bool} {target : Target} {c : Call}
      {resume : Except StoreError c.Result → Except MigrateError π} {e : MigrateError}
      (hn : Process.next a.state = .call guarded target c resume) (hc : (guarded && cond.cancelled a.made) = false)
      (hr : resume (performUnder cond a.made a.stores target c).1 = .error e) :
      Ends a [(target, c)] (performUnder cond a.made a.stores target c).2 (.error e)
  | unreadable {a : Config σ η π} {path : String} {resume : Except FileError String → Except MigrateError π}
      {e : MigrateError} (hn : Process.next a.state = .read path resume)
      (hr : resume (files a.stores.data path) = .error e) : Ends a [] a.stores (.error e)

/-- `n` transitions in a row, with their calls. -/
inductive Path : Nat → Config σ η π → List (Target × Call) → Config σ η π → Prop
  | refl (a : Config σ η π) : Path 0 a [] a
  | step {n : Nat} {a b c : Config σ η π} {l m : List (Target × Call)} :
      Transition files cond a l b → Path n b m c → Path (n + 1) a (l ++ m) c

inductive ByCall : Nat → Config σ η π → List (Target × Call) → Config σ η π → Prop
  | last {n : Nat} {a b c : Config σ η π} {l : List (Target × Call)} {x : Target × Call} :
      Path files cond n a l b → Transition files cond b [x] c → ByCall (n + 1) a (l ++ [x]) c

variable {files cond}

/-! ## one turn -/

theorem Transition.follow_succ {a b : Config σ η π} {l : List (Target × Call)} (h : Transition files cond a l b)
    (k : Nat) : a.follow files cond (k + 1) = (b.follow files cond k).after l := by
  cases h with
  | checkpoint hn hc => simp [Config.follow, follow, hn, hc, Course.after]
  | call hn hc hr => simp only [Config.follow, follow, hn, hc, hr]; rfl
  | read hn hr => simp [Config.follow, follow, hn, hr, Course.after]

theorem Ends.follow_succ {a : Config σ η π} {l : List (Target × Call)} {s : Stores σ η} {o : Except MigrateError α}
    (h : Ends files cond a l s o) (k : Nat) : a.follow files cond (k + 1) = ⟨l, s, some o⟩ := by
  cases h with
  | done hn => simp [Config.follow, follow, hn]
  | stopped hn hc => simp [Config.follow, follow, hn, hc]
  | withheld hn hc => simp [Config.follow, follow, hn, hc]
  | refused hn hc hr => simp [Config.follow, follow, hn, hc, hr]
  | unreadable hn hr => simp [Config.follow, follow, hn, hr]

theorem transition_or_ends (files : FileReader σ) (cond : Conditions) (a : Config σ η π) :
    (∃ l b, Transition files cond a l b) ∨ ∃ l s o, Ends files cond a l s o := by
  rcases hn : Process.next a.state with o | go | ⟨guarded, target, c, resume⟩ | ⟨path, resume⟩
  · exact Or.inr ⟨_, _, _, .done hn⟩
  · rcases hc : cond.cancelled a.made with _ | _
    · exact Or.inl ⟨_, _, .checkpoint hn hc⟩
    · exact Or.inr ⟨_, _, _, .stopped hn hc⟩
  · rcases hc : guarded && cond.cancelled a.made with _ | _
    · rcases hr : resume (performUnder cond a.made a.stores target c).1 with e | p
      · exact Or.inr ⟨_, _, _, .refused hn hc hr⟩
      · exact Or.inl ⟨_, _, .call hn hc hr⟩
    · exact Or.inr ⟨_, _, _, .withheld hn hc⟩
  · rcases hr : resume (files a.stores.data path) with e | p
    · exact Or.inr ⟨_, _, _, .unreadable hn hr⟩
    · exact Or.inl ⟨_, _, .read hn hr⟩

theorem Transition.made_eq {a b : Config σ η π} {l : List (Target × Call)} (h : Transition files cond a l b) :
    b.made = a.made + l.length := by
  cases h <;> rfl

/-! ## paths -/

theorem Path.single {a b : Config σ η π} {l : List (Target × Call)} (h : Transition files cond a l b) :
    Path files cond 1 a l b := by
  simpa using Path.step h (.refl b)

theorem Path.trans {n m : Nat} {a b c : Config σ η π} {l r : List (Target × Call)} (h : Path files cond n a l b)
    (h' : Path files cond m b r c) : Path files cond (n + m) a (l ++ r) c := by
  induction h with
  | refl a => simpa using h'
  | @step n a b _ l m ht _ ih =>
    rw [List.append_assoc, Nat.succ_add_eq_add_succ n, Nat.add_succ]
    exact .step ht (ih h')

theorem Path.made_eq {n : Nat} {a b : Config σ η π} {l : List (Target × Call)} (h : Path files cond n a l b) :
    b.made = a.made + l.length := by
  induction h with
  | refl a => rfl
  | step ht _ ih =>
    rw [ih, ht.made_eq, List.length_append]; omega

theorem ByCall.path {n : Nat} {a b : Config σ η π} {l : List (Target × Call)} (h : ByCall files cond n a l b) :
    Path files cond n a l b := by
  cases h with
  | last hp ht => exact hp.trans (.single ht)

theorem Path.byCall {n m : Nat} {a b c : Config σ η π} {l r : List (Target × Call)} (h : Path files cond n a l b)
    (h' : ByCall files cond m b r c) : ByCall files cond (n + m) a (l ++ r) c := by
  cases h' with
  | last hp ht => rw [← List.append_assoc]; exact .last (h.trans hp) ht

theorem Transition.byCall {a b : Config σ η π} {x : Target × Call} (h : Transition files cond a [x] b) :
    ByCall files cond 1 a [x] b :=
  .last (.refl a) h

/-- Following goes along a path and then on from its end. -/
theorem Path.follow_eq {n : Nat} {a b : Config σ η π} {l : List (Target × Call)} (h : Path files cond n a l b)
    (k : Nat) : a.follow files cond (n + k) = (b.follow files cond k).after l := by
  induction h with
  | refl a => simp
  | @step n a b c l m ht _ ih =>
    rw [show n + 1 + k = (n + k) + 1 by omega, ht.follow_succ, ih, Course.after_after]

theorem Path.follow_ends {n : Nat} {a b : Config σ η π} {l r : List (Target × Call)} {s : Stores σ η}
    {o : Except MigrateError α} (h : Path files cond n a l b) (he : Ends files cond b r s o) {fuel : Nat}
    (hf : n < fuel) : a.follow files cond fuel = ⟨l ++ r, s, some o⟩ := by
  obtain ⟨k, rfl⟩ : ∃ k, fuel = n + (k + 1) := ⟨fuel - n - 1, by omega⟩
  rw [h.follow_eq, he.follow_succ]; rfl

/-- All paths to an end make the same calls, and it is the same end. -/
theorem Path.ends_unique {n m : Nat} {a b b' : Config σ η π} {l l' r r' : List (Target × Call)} {s s' : Stores σ η}
    {o o' : Except MigrateError α} (h : Path files cond n a l b) (he : Ends files cond b r s o)
    (h' : Path files cond m a l' b') (he' : Ends files cond b' r' s' o') : l ++ r = l' ++ r' ∧ s = s' ∧ o = o' := by
  have hcourse := h.follow_ends he (show n < n + m + 1 by omega)
  rw [h'.follow_ends he' (by omega)] at hcourse
  obtain ⟨hcalls, hs, ho⟩ := Course.mk.inj hcourse
  exact ⟨hcalls.symm, hs.symm, (Option.some_inj.mp ho).symm⟩

theorem Path.follow_ended {n fuel : Nat} {a b : Config σ η π} {l : List (Target × Call)} (h : Path files cond n a l b)
    (ho : (a.follow files cond fuel).outcome ≠ none) :
    ∃ k, a.follow files cond fuel = (b.follow files cond k).after l ∧ (b.follow files cond k).outcome ≠ none := by
  induction h generalizing fuel with
  | refl a => exact ⟨fuel, rfl, ho⟩
  | step ht _ ih =>
    cases fuel with
    | zero => exact absurd rfl ho
    | succ fuel =>
      rw [ht.follow_succ] at ho ⊢
      obtain ⟨k, hk, ho⟩ := ih ho
      exact ⟨k, by rw [hk, Course.after_after], ho⟩

/-- An outcome is that of an end to which a path leads. -/
theorem follow_ends {fuel : Nat} {a : Config σ η π} {o : Except MigrateError α}
    (h : (a.follow files cond fuel).outcome = some o) :
    ∃ n < fuel, ∃ l b r s, Path files cond n a l b ∧ Ends files cond b r s o ∧
      a.follow files cond fuel = ⟨l ++ r, s, some o⟩ := by
  induction fuel generalizing a with
  | zero => cases h
  | succ fuel ih =>
    rcases transition_or_ends files cond a with ⟨l, b, ht⟩ | ⟨l, s, o', he⟩
    · rw [ht.follow_succ] at h
      obtain ⟨n, hn, m, c, r, s, hp, he, hf⟩ := ih h
      exact ⟨n + 1, by omega, l ++ m, c, r, s, .step ht hp, he,
        by rw [ht.follow_succ, hf]; simp [Course.after]⟩
    · have hf := he.follow_succ fuel
      rw [hf] at h
      cases h
      exact ⟨0, by omega, [], a, l, s, .refl a, he, hf⟩

/-- Once a process has ended, more fuel changes nothing. -/
theorem follow_mono {fuel more : Nat} {a : Config σ η π} (h : (a.follow files cond fuel).outcome ≠ none)
    (hle : fuel ≤ more) : a.follow files cond more = a.follow files cond fuel := by
  obtain ⟨o, ho⟩ := Option.ne_none_iff_exists'.mp h
  obtain ⟨n, hn, l, b, r, s, hp, he, hf⟩ := follow_ends ho
  rw [hf, hp.follow_ends he (by omega)]

/-! ## what holds all along -/

section

variable {I : π → Prop} {P : Target × Call → Prop} {Q : MigrateError → Prop}

/-- An answer leads to a state of `I`, or ends the process with an error of `Q`. -/
def Leads (I : π → Prop) (Q : MigrateError → Prop) : Except MigrateError π → Prop
  | .ok p => I p
  | .error e => Q e

/-- What is asked for next is a call of `P` if it is a call, and whatever is answered leads to a state of `I` or to an
    error of `Q`. -/
def Next.All (I : π → Prop) (P : Target × Call → Prop) (Q : MigrateError → Prop) : Next π α → Prop
  | .done outcome => ∀ e, outcome = .error e → Q e
  | .checkpoint go => I go
  | .call _ target c resume => P (target, c) ∧ ∀ answer, Leads I Q (resume answer)
  | .read _ resume => ∀ content, Leads I Q (resume content)

theorem Transition.all {a b : Config σ η π} {l : List (Target × Call)} (h : (Process.next a.state).All I P Q)
    (ht : Transition files cond a l b) : I b.state ∧ ∀ x ∈ l, P x := by
  cases ht with
  | checkpoint hn hc =>
    rw [hn] at h
    exact ⟨h, by simp⟩
  | @call guarded target c resume p hn hc hr =>
    rw [hn] at h
    have hp := h.2 (performUnder cond a.made a.stores target c).1
    rw [hr] at hp
    refine ⟨hp, ?_⟩
    intro x hx
    rw [List.mem_singleton.mp hx]; exact h.1
  | @read path resume p hn hr =>
    rw [hn] at h
    have hp := h (files a.stores.data path)
    rw [hr] at hp
    exact ⟨hp, by simp⟩

theorem Path.all (hI : ∀ p, I p → (Process.next p).All I P Q) {n : Nat} {a b : Config σ η π}
    {l : List (Target × Call)} (h : I a.state) (hp : Path files cond n a l b) : I b.state ∧ ∀ x ∈ l, P x := by
  induction hp with
  | refl a => exact ⟨h, by simp⟩
  | step ht _ ih =>
    obtain ⟨hb, hl⟩ := ht.all (hI _ h)
    obtain ⟨hc, hm⟩ := ih hb
    exact ⟨hc, List.forall_mem_append.mpr ⟨hl, hm⟩⟩

theorem Ends.all (hcancelled : Q .cancelled) {a : Config σ η π} {l : List (Target × Call)} {s : Stores σ η}
    {o : Except MigrateError α} (h : (Process.next a.state).All I P Q) (he : Ends files cond a l s o) :
    (∀ e, o = .error e → Q e) ∧ ∀ x ∈ l, P x := by
  have hone : ∀ {e : MigrateError}, Q e → ∀ e', (.error e : Except MigrateError α) = .error e' → Q e' := by
    intro e hq e' he
    cases he
    exact hq
  cases he with
  | done hn =>
    rw [hn] at h
    exact ⟨h, by simp⟩
  | stopped | withheld => exact ⟨hone hcancelled, by simp⟩
  | @refused guarded target c resume e hn hc hr =>
    rw [hn] at h
    have hp := h.2 (performUnder cond a.made a.stores target c).1
    rw [hr] at hp
    refine ⟨hone hp, ?_⟩
    intro x hx
    rw [List.mem_singleton.mp hx]; exact h.1
  | @unreadable path resume e hn hr =>
    rw [hn] at h
    have hp := h (files a.stores.data path)
    rw [hr] at hp
    exact ⟨hone hp, by simp⟩

variable (files cond) in
/-- Where the states of `I` ask for calls of `P` only, and whatever is answered leads to a state of `I` or to an error
    of `Q`, a process in a state of `I` makes calls of `P` only, and fails with an error of `Q` if it fails. -/
theorem follow_all (hI : ∀ p, I p → (Process.next p).All I P Q) (hcancelled : Q .cancelled) (fuel : Nat)
    {a : Config σ η π} (h : I a.state) :
    (∀ x ∈ (a.follow files cond fuel).calls, P x) ∧
      ∀ e, (a.follow files cond fuel).outcome = some (.error e) → Q e := by
  induction fuel generalizing a with
  | zero => exact ⟨by simp [Config.follow, follow], by simp [Config.follow, follow]⟩
  | succ fuel ih =>
    rcases transition_or_ends files cond a with ⟨l, b, ht⟩ | ⟨l, s, o, he⟩
    · obtain ⟨hb, hl⟩ := ht.all (hI _ h)
      obtain ⟨hcalls, houtcome⟩ := ih hb
      rw [ht.follow_succ]
      exact ⟨List.forall_mem_append.mpr ⟨hl, hcalls⟩, houtcome⟩
    · obtain ⟨ho, hl⟩ := he.all hcancelled (hI _ h)
      rw [he.follow_succ]
      exact ⟨hl, fun e heq => ho e (Option.some.inj heq)⟩

end

/-! ## the stores after a course -/

/-- The stores after calls under the conditions, `made` calls having been made before. -/
def Stores.replay (cond : Conditions) : Nat → Stores σ η → List (Target × Call) → Stores σ η
  | _, s, [] => s
  | made, s, (target, c) :: r => Stores.replay cond (made + 1) (performUnder cond made s target c).2 r

theorem Stores.replay_append (cond : Conditions) (made : Nat) (s : Stores σ η) (l r : List (Target × Call)) :
    s.replay cond made (l ++ r) = (s.replay cond made l).replay cond (made + l.length) r := by
  induction l generalizing made s with
  | nil => rfl
  | cons x l ih =>
    rw [List.cons_append, Stores.replay, Stores.replay, ih, List.length_cons]
    congr 1; omega

theorem Transition.stores_eq {a b : Config σ η π} {l : List (Target × Call)} (h : Transition files cond a l b) :
    b.stores = a.stores.replay cond a.made l := by
  cases h <;> rfl

theorem Ends.stores_eq {a : Config σ η π} {l : List (Target × Call)} {s : Stores σ η} {o : Except MigrateError α}
    (h : Ends files cond a l s o) : s = a.stores.replay cond a.made l := by
  cases h <;> rfl

theorem Path.stores_eq {n : Nat} {a b : Config σ η π} {l : List (Target × Call)} (h : Path files cond n a l b) :
    b.stores = a.stores.replay cond a.made l := by
  induction h with
  | refl a => rfl
  | step ht _ ih => rw [ih, ht.stores_eq, ht.made_eq, Stores.replay_append]

/-- A process leaves the stores as its calls leave them. -/
theorem follow_stores (files : FileReader σ) (cond : Conditions) (fuel : Nat) (a : Config σ η π) :
    (a.follow files cond fuel).stores = a.stores.replay cond a.made (a.follow files cond fuel).calls := by
  induction fuel generalizing a with
  | zero => rfl
  | succ fuel ih =>
    rcases transition_or_ends files cond a with ⟨l, b, ht⟩ | ⟨l, s, o, he⟩
    · rw [ht.follow_succ]
      show (b.follow files cond fuel).stores = a.stores.replay cond a.made (l ++ (b.follow files cond fuel).calls)
      rw [ih, Stores.replay_append, ht.stores_eq, ht.made_eq]
    · rw [he.follow_succ]; exact he.stores_eq

/-! ## cancellation -/

def Conditions.spared (cond : Conditions) : Conditions := { cond with cancelAfter := none }

theorem Conditions.spared_cancelled (cond : Conditions) (made : Nat) : cond.spared.cancelled made = false := rfl

/-- A turn of a process that is never cancelled is the turn of the one that may be, unless that is stopped there. -/
theorem Transition.spared {a b : Config σ η π} {l : List (Target × Call)} (h : Transition files cond.spared a l b) :
    Transition files cond a l b ∨ Ends files cond a [] a.stores (.error .cancelled) := by
  cases h with
  | checkpoint hn _ =>
    rcases hc : cond.cancelled a.made with _ | _
    · exact Or.inl (.checkpoint hn hc)
    · exact Or.inr (.stopped hn hc)
  | @call guarded target c resume p hn _ hr =>
    rcases hc : guarded && cond.cancelled a.made with _ | _
    · exact Or.inl (.call hn hc hr)
    · exact Or.inr (.withheld hn hc)
  | read hn hr => exact Or.inl (.read hn hr)

theorem Ends.spared {a : Config σ η π} {l : List (Target × Call)} {s : Stores σ η} {o : Except MigrateError α}
    (h : Ends files cond.spared a l s o) :
    Ends files cond a l s o ∨ Ends files cond a [] a.stores (.error .cancelled) := by
  cases h with
  | done hn => exact Or.inl (.done hn)
  | stopped _ hc => cases hc
  | withheld _ hc => simp [Conditions.spared_cancelled] at hc
  | @refused guarded target c resume e hn _ hr =>
    rcases hc : guarded && cond.cancelled a.made with _ | _
    · exact Or.inl (.refused hn hc hr)
    · exact Or.inr (.withheld hn hc)
  | unreadable hn hr => exact Or.inl (.unreadable hn hr)

/-- A cancelled process does what it would have done without, up to where it stops as cancelled. -/
theorem follow_cancelled (files : FileReader σ) (cond : Conditions) (fuel : Nat) (a : Config σ η π) :
    a.follow files cond fuel = a.follow files cond.spared fuel ∨
      ((a.follow files cond fuel).outcome = some (.error .cancelled) ∧
        (a.follow files cond fuel).calls <+: (a.follow files cond.spared fuel).calls) := by
  induction fuel generalizing a with
  | zero => exact Or.inl rfl
  | succ fuel ih =>
    rcases transition_or_ends files cond.spared a with ⟨l, b, ht⟩ | ⟨l, s, o, he⟩
    · rcases ht.spared with ht' | he'
      · rw [ht.follow_succ, ht'.follow_succ]
        rcases ih b with heq | ⟨ho, hp⟩
        · exact Or.inl (by rw [heq])
        · exact Or.inr ⟨ho, (List.prefix_append_right_inj l).mpr hp⟩
      · rw [he'.follow_succ]; exact Or.inr ⟨rfl, List.nil_prefix⟩
    · rcases he.spared with he' | he'
      · exact Or.inl (by rw [he.follow_succ, he'.follow_succ])
      · rw [he'.follow_succ]; exact Or.inr ⟨rfl, List.nil_prefix⟩

theorem performUnder_congr {cond' : Conditions} (hf : cond'.fault = cond.fault) (made : Nat) (s : Stores σ η)
    (target : Target) (c : Call) : performUnder cond' made s target c = performUnder cond made s target c := by
  unfold performUnder
  rw [hf]

theorem Transition.under {cond' : Conditions} {a b : Config σ η π} {l : List (Target × Call)}
    (h : Transition files cond a l b) (hf : cond'.fault = cond.fault) (hc : cond'.cancelled a.made = false) :
    Transition files cond' a l b := by
  cases h with
  | checkpoint hn _ => exact .checkpoint hn hc
  | call hn _ hr =>
    rw [← performUnder_congr hf] at hr ⊢
    exact .call hn (by rw [hc, Bool.and_false]) hr
  | read hn hr => exact .read hn hr

/-- A path is one under any conditions with the same faults that cancel at none of its turns. -/
theorem Path.under {cond' : Conditions} {n : Nat} {a b : Config σ η π} {l : List (Target × Call)}
    (h : Path files cond n a l b) (hf : cond'.fault = cond.fault)
    (hc : ∀ m, a.made ≤ m → m ≤ b.made → cond'.cancelled m = false) : Path files cond' n a l b := by
  induction h with
  | refl a => exact .refl a
  | @step n a b c l m ht hp ih =>
    have hb : a.made ≤ b.made := by rw [ht.made_eq]; omega
    have hbc : b.made ≤ c.made := by rw [hp.made_eq]; omega
    refine .step (ht.under hf (hc _ (by omega) (by omega))) (ih ?_)
    intro k hk hk'
    exact hc k (by omega) hk'

/-- Where a path ends with a call, being cancelled right after it comes too late. -/
theorem ByCall.under {cond' : Conditions} {n : Nat} {a b : Config σ η π} {l : List (Target × Call)}
    (h : ByCall files cond n a l b) (hf : cond'.fault = cond.fault)
    (hc : ∀ m, a.made ≤ m → m < b.made → cond'.cancelled m = false) : ByCall files cond' n a l b := by
  cases h with
  | @last n a c _ l x hp ht =>
    have hb : b.made = c.made + 1 := ht.made_eq
    have ha : a.made ≤ c.made := by rw [hp.made_eq]; omega
    refine .last (hp.under hf ?_) (ht.under hf (hc _ ha (by omega)))
    intro m hm hm'
    exact hc m hm (by omega)

/-! ## calm conditions -/

theorem Conditions.calm_cancelled (made : Nat) : calm.cancelled made = false := rfl

theorem Stores.replay_calm (made made' : Nat) (s : Stores σ η) (calls : List (Target × Call)) :
    s.replay .calm made calls = s.replay .calm made' calls := by
  induction calls generalizing made made' s with
  | nil => rfl
  | cons x r ih => exact ih (made + 1) (made' + 1) (s.perform x.1 x.2).2

def Config.later (a : Config σ η π) (k : Nat) : Config σ η π := { a with made := a.made + k }

theorem Transition.later {a b : Config σ η π} {l : List (Target × Call)} (h : Transition files .calm a l b) (k : Nat) :
    Transition files .calm (a.later k) l (b.later k) := by
  cases h with
  | checkpoint hn hc => exact .checkpoint (a := a.later k) hn rfl
  | @call guarded target c resume p hn hc hr =>
    have : Transition files .calm (a.later k) [(target, c)] _ := .call hn (Bool.and_false _) hr
    have hmade : (a.later k).made + 1 = a.made + 1 + k := by
      show a.made + k + 1 = a.made + 1 + k
      omega
    rwa [hmade] at this
  | read hn hr => exact .read (a := a.later k) hn hr

theorem Path.later {n : Nat} {a b : Config σ η π} {l : List (Target × Call)} (h : Path files .calm n a l b) (k : Nat) :
    Path files .calm n (a.later k) l (b.later k) := by
  induction h with
  | refl a => exact .refl _
  | step ht _ ih => exact .step (ht.later k) ih

theorem Ends.later {a : Config σ η π} {l : List (Target × Call)} {s : Stores σ η} {o : Except MigrateError α}
    (h : Ends files .calm a l s o) (k : Nat) : Ends files .calm (a.later k) l s o := by
  cases h with
  | done hn => exact .done (a := a.later k) hn
  | stopped _ hc => cases hc
  | @withheld guarded target c resume _ hc => simp [Conditions.calm_cancelled] at hc
  | refused hn hc hr => exact .refused (a := a.later k) hn (Bool.and_false _) hr
  | unreadable hn hr => exact .unreadable (a := a.later k) hn hr

theorem Transition.of_call {made : Nat} {stores after : Stores σ η} {p q : π} {guarded : Bool} {target : Target}
    {c : Call} {answer : Except StoreError c.Result} {resume : Except StoreError c.Result → Except MigrateError π}
    (hn : Process.next p = .call guarded target c resume) (hp : stores.perform target c = (answer, after))
    (hr : resume answer = .ok q) : Transition files .calm ⟨made, stores, p⟩ [(target, c)] ⟨made + 1, after, q⟩ := by
  have hp' : performUnder .calm made stores target c = (answer, after) := hp
  have : Transition files .calm ⟨made, stores, p⟩ _ _ := .call hn (Bool.and_false _) (by rw [hp']; exact hr)
  rwa [hp'] at this

theorem Ends.of_call {made : Nat} {stores after : Stores σ η} {p : π} {guarded : Bool} {target : Target} {c : Call}
    {answer : Except StoreError c.Result} {resume : Except StoreError c.Result → Except MigrateError π}
    {e : MigrateError} (hn : Process.next p = .call guarded target c resume)
    (hp : stores.perform target c = (answer, after)) (hr : resume answer = .error e) :
    Ends files .calm ⟨made, stores, p⟩ [(target, c)] after (.error e : Except MigrateError α) := by
  have hp' : performUnder .calm made stores target c = (answer, after) := hp
  have : Ends files .calm ⟨made, stores, p⟩ _ _ (.error e : Except MigrateError α) :=
    .refused hn (Bool.and_false _) (by rw [hp']; exact hr)
  rwa [hp'] at this

theorem Ends.of_ok {a : Config σ η π} {l : List (Target × Call)} {s : Stores σ η} {x : α}
    (h : Ends files cond a l s (.ok x)) : l = [] ∧ s = a.stores ∧ Process.next a.state = .done (.ok x) := by
  cases h with
  | done hn => exact ⟨rfl, rfl, hn⟩

end

/-! ## processes that a failing call ends -/

def EndsOnFailure (π : Type) {α : Type} [Process π α] : Prop :=
  ∀ {p : π} {guarded : Bool} {target : Target} {c : Call} {resume : Except StoreError c.Result → Except MigrateError π},
    Process.next p = .call guarded target c resume → ∀ e, ∃ e', resume (.error e) = .error e'

namespace EndsOnFailure

variable {σ η π α : Type} [TableStore σ] [TableStore η] [Process π α] (hend : EndsOnFailure π)
  {files : FileReader σ} {cond : Conditions} {a b : Config σ η π} {l : List (Target × Call)}

include hend

omit [TableStore σ] [TableStore η] in
theorem granted {p q : π} {guarded : Bool} {target : Target} {c : Call}
    {resume : Except StoreError c.Result → Except MigrateError π}
    (hn : Process.next p = .call guarded target c resume) {answered : Except StoreError c.Result}
    (hr : resume answered = .ok q) : ∃ answer, answered = .ok answer := by
  cases answered with
  | error e =>
    obtain ⟨e', he⟩ := hend hn e
    cases he.symm.trans hr
  | ok answer => exact ⟨answer, rfl⟩

theorem fault_eq_none {x : Target × Call} (ht : Transition files cond a [x] b) : cond.fault (a.made + 1) = none := by
  cases ht with
  | @call guarded target c resume p hn hc hr =>
    obtain ⟨answer, hanswer⟩ := hend.granted hn hr
    cases hf : cond.fault (a.made + 1) with
    | none => rfl
    | some e =>
      rw [performUnder, hf] at hanswer
      cases hanswer

/-- A turn that leads on is the turn in calm conditions. -/
theorem transition_calm (ht : Transition files cond a l b) : Transition files .calm a l b := by
  have hreached : ∀ x, l = [x] → cond.fault (a.made + 1) = none := by
    rintro x rfl
    exact hend.fault_eq_none ht
  cases ht with
  | checkpoint hn _ => exact .checkpoint hn rfl
  | @call guarded target c resume p hn _ hr =>
    have hp : performUnder cond a.made a.stores target c = performUnder .calm a.made a.stores target c := by
      simp only [performUnder, hreached _ rfl]
      rfl
    rw [hp] at hr ⊢
    exact .call hn (Bool.and_false _) hr
  | read hn hr => exact .read hn hr

theorem path_calm {n : Nat} (hp : Path files cond n a l b) : Path files .calm n a l b := by
  induction hp with
  | refl a => exact .refl a
  | step ht _ ih => exact .step (hend.transition_calm ht) ih

/-- A process that succeeds does what it does in calm conditions. -/
theorem follow_calm {fuel : Nat} {x : α} (ho : (a.follow files cond fuel).outcome = some (.ok x)) :
    a.follow files cond fuel = a.follow files .calm fuel := by
  obtain ⟨n, hn, l, b, r, s, hp, he, hc⟩ := follow_ends ho
  obtain ⟨rfl, rfl, hdone⟩ := he.of_ok
  rw [hc, (hend.path_calm hp).follow_ends (.done hdone) hn]

end EndsOnFailure

/-! ## stores that answer alike -/

section

variable {σ η σ' η' π α : Type} [TableStore σ] [TableStore η] [TableStore σ'] [TableStore η'] [Process π α]

/-- Calls of `P` on related stores are answered alike, and leave related stores. -/
def AnswerAlike (R : Stores σ η → Stores σ' η' → Prop) (P : Target × Call → Prop) : Prop :=
  ∀ s s', R s s' → ∀ target c, P (target, c) →
    (s.perform target c).1 = (s'.perform target c).1 ∧ R (s.perform target c).2 (s'.perform target c).2

variable {R : Stores σ η → Stores σ' η' → Prop} {P : Target × Call → Prop}

theorem AnswerAlike.performUnder (hR : AnswerAlike R P) (cond : Conditions) (made : Nat) {s : Stores σ η}
    {s' : Stores σ' η'} (h : R s s') {target : Target} {c : Call} (hP : P (target, c)) :
    (performUnder cond made s target c).1 = (performUnder cond made s' target c).1 ∧
      R (performUnder cond made s target c).2 (performUnder cond made s' target c).2 := by
  unfold TableMigrations.performUnder
  cases cond.fault (made + 1) with
  | some e => exact ⟨rfl, h⟩
  | none => exact hR s s' h target c hP

variable (hR : AnswerAlike R P) {text : String → Except FileError String} {cond : Conditions}

include hR

theorem Transition.alike {a b : Config σ η π} {l : List (Target × Call)} (ht : Transition (fun _ => text) cond a l b)
    (hP : ∀ {guarded target c resume}, Process.next a.state = .call guarded target c resume → P (target, c))
    {s' : Stores σ' η'} (h : R a.stores s') :
    ∃ t', Transition (fun _ => text) cond ⟨a.made, s', a.state⟩ l ⟨b.made, t', b.state⟩ ∧ R b.stores t' := by
  cases ht with
  | checkpoint hn hc => exact ⟨s', .checkpoint (a := ⟨a.made, s', a.state⟩) hn hc, h⟩
  | @call guarded target c resume p hn hc hr =>
    obtain ⟨hanswer, hafter⟩ := hR.performUnder cond a.made h (hP hn)
    rw [hanswer] at hr
    exact ⟨_, .call (a := ⟨a.made, s', a.state⟩) hn hc hr, hafter⟩
  | read hn hr => exact ⟨s', .read (a := ⟨a.made, s', a.state⟩) hn hr, h⟩

theorem Ends.alike {a : Config σ η π} {l : List (Target × Call)} {s : Stores σ η} {o : Except MigrateError α}
    (he : Ends (fun _ => text) cond a l s o)
    (hP : ∀ {guarded target c resume}, Process.next a.state = .call guarded target c resume → P (target, c))
    {s' : Stores σ' η'} (h : R a.stores s') :
    ∃ t', Ends (fun _ => text) cond ⟨a.made, s', a.state⟩ l t' o ∧ R s t' := by
  cases he with
  | done hn => exact ⟨s', .done (a := ⟨a.made, s', a.state⟩) hn, h⟩
  | stopped hn hc => exact ⟨s', .stopped (a := ⟨a.made, s', a.state⟩) hn hc, h⟩
  | withheld hn hc => exact ⟨s', .withheld (a := ⟨a.made, s', a.state⟩) hn hc, h⟩
  | @refused guarded target c resume e hn hc hr =>
    obtain ⟨hanswer, hafter⟩ := hR.performUnder cond a.made h (hP hn)
    rw [hanswer] at hr
    exact ⟨_, .refused (a := ⟨a.made, s', a.state⟩) hn hc hr, hafter⟩
  | unreadable hn hr => exact ⟨s', .unreadable (a := ⟨a.made, s', a.state⟩) hn hr, h⟩

variable (text cond) in
/-- A process that asks for calls of `P` only makes the same calls on related stores, and ends alike. -/
theorem follow_alike {I : π → Prop}
    (hcall : ∀ {p guarded target c resume}, I p → Process.next p = .call guarded target c resume → P (target, c))
    (hkeep : ∀ {a b : Config σ η π} {l}, I a.state → Transition (fun _ => text) cond a l b → I b.state) (fuel : Nat)
    {a : Config σ η π} {s' : Stores σ' η'} (h : R a.stores s') (hp : I a.state) :
    let c := a.follow (fun _ => text) cond fuel
    let c' := Config.follow (fun _ => text) cond fuel ⟨a.made, s', a.state⟩
    c.calls = c'.calls ∧ c.outcome = c'.outcome ∧ R c.stores c'.stores := by
  induction fuel generalizing a s' with
  | zero => exact ⟨rfl, rfl, h⟩
  | succ fuel ih =>
    rcases transition_or_ends (fun _ => text) cond a with ⟨l, b, ht⟩ | ⟨l, s, o, he⟩
    · obtain ⟨t', ht', hb⟩ := ht.alike hR (hcall hp) h
      obtain ⟨hcalls, houtcome, hstores⟩ := ih hb (hkeep hp ht)
      rw [ht.follow_succ, ht'.follow_succ]
      exact ⟨congrArg (l ++ ·) hcalls, houtcome, hstores⟩
    · obtain ⟨t', he', hs⟩ := he.alike hR (hcall hp) h
      rw [he.follow_succ, he'.follow_succ]
      exact ⟨rfl, rfl, hs⟩

end

end TableMigrations
