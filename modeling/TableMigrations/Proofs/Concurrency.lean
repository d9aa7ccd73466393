/-
  TableMigrations.Proofs.Concurrency — several runs at once on the same stores.

  Any number of runners, each with its own directory, options and fate, take turns on stores they share, in any order.
  A turn is one of `follow`'s (`advance`) and makes at most one call, which nothing comes between; a runner alone does
  what it does by itself (`interleave_alone`). Lookup and record are calls of different turns, so two runners may both
  find a migration unrecorded and carry it out. Only one of them records it: a record is written where there is none
  (`Crew.turn_cases`), stays from then on, and turns every later attempt down as a conflict (`claimed_once`).
-/
import TableMigrations.Proofs.Failure

namespace TableMigrations

/-! ## one turn by itself -/

inductive Standing (π α : Type) where
  | under (made : Nat) (p : π)
  | over (outcome : Except MigrateError α)

def Standing.outcome {π α : Type} : Standing π α → Option (Except MigrateError α)
  | .under .. => none
  | .over outcome => some outcome

section

variable {σ η π α : Type} [TableStore σ] [TableStore η] [Process π α]

/-- One turn of a process: the call that it makes, if it makes one, and whether that is granted; the stores after it;
    and how the process stands. -/
def advance (files : FileReader σ) (cond : Conditions) (made : Nat) (stores : Stores σ η) (p : π) :
    List ((Target × Call) × Bool) × Stores σ η × Standing π α :=
  match Process.next p with
  | .done outcome => ([], stores, .over outcome)
  | .checkpoint go =>
    ([], stores, if cond.cancelled made then .over (.error .cancelled) else .under made go)
  | .call guarded target c resume =>
    if guarded && cond.cancelled made then ([], stores, .over (.error .cancelled))
    else
      let answered := performUnder cond made stores target c
      ([((target, c), answered.1.isOk)], answered.2, match resume answered.1 with
        | .ok p => .under (made + 1) p
        | .error e => .over (.error e))
  | .read path resume =>
    ([], stores, match resume (files stores.data path) with
      | .ok p => .under made p
      | .error e => .over (.error e))

variable (files : FileReader σ) (cond : Conditions)

theorem advance_cases (made : Nat) (stores : Stores σ η) (p : π) :
    (∃ l granted b, Transition files cond ⟨made, stores, p⟩ l b ∧
        (∀ x ∈ l, granted = (performUnder cond made stores x.1 x.2).1.isOk) ∧
        advance files cond made stores p = (l.map (·, granted), b.stores, .under b.made b.state)) ∨
      ∃ l granted s o, Ends files cond ⟨made, stores, p⟩ l s o ∧
        (∀ x ∈ l, granted = (performUnder cond made stores x.1 x.2).1.isOk) ∧
        advance files cond made stores p = (l.map (·, granted), s, .over o) := by
  unfold advance
  rcases hn : Process.next p with o | go | ⟨guarded, target, c, resume⟩ | ⟨path, resume⟩
  · exact Or.inr ⟨[], false, _, _, .done hn, nofun, rfl⟩
  · rcases hc : cond.cancelled made with _ | _
    · exact Or.inl ⟨[], false, _, .checkpoint hn hc, nofun, rfl⟩
    · exact Or.inr ⟨[], false, _, _, .stopped hn hc, nofun, rfl⟩
  · rcases hc : guarded && cond.cancelled made with _ | _
    · have hone : ∀ x ∈ [(target, c)], (performUnder cond made stores target c).1.isOk =
          (performUnder cond made stores x.1 x.2).1.isOk := by
        intro x hx
        rw [List.mem_singleton.mp hx]
      rcases hr : resume (performUnder cond made stores target c).1 with e | q
      · refine Or.inr ⟨[(target, c)], _, _, _, .refused hn hc hr, hone, ?_⟩
        simp only [hc, hr, Bool.false_eq_true, if_false]
        rfl
      · refine Or.inl ⟨[(target, c)], _, _, .call hn hc hr, hone, ?_⟩
        simp only [hc, hr, Bool.false_eq_true, if_false]
        rfl
    · refine Or.inr ⟨[], false, _, _, .withheld hn hc, nofun, ?_⟩
      simp only [hc, if_true]
      rfl
  · rcases hr : resume (files stores.data path) with e | q
    · exact Or.inr ⟨[], false, _, _, .unreadable hn hr, nofun, by simp only [hr]; rfl⟩
    · exact Or.inl ⟨[], false, _, .read hn hr, nofun, by simp only [hr]; rfl⟩

end

section

variable {σ η : Type} [TableStore σ] [TableStore η] (files : FileReader σ) (cond : Conditions)

theorem Run.advance_cases (made : Nat) (stores : Stores σ η) (r : Run) :
    (∃ l b, Transition files cond ⟨made, stores, r⟩ l b ∧
        advance files cond made stores r = (l.map (·, true), b.stores, .under b.made b.state)) ∨
      ∃ l s o, Ends files cond ⟨made, stores, r⟩ l s o ∧
        advance files cond made stores r = (l.map (·, false), s, .over o) := by
  rcases TableMigrations.advance_cases files cond made stores r with
    ⟨l, granted, b, ht, hl, ha⟩ | ⟨l, granted, s, o, he, hl, ha⟩
  · refine Or.inl ⟨l, b, ht, ha.trans ?_⟩
    rw [List.map_congr_left fun x hx => ?_]
    have hgranted := (Path.single ht).granted [] x [] ?_
    · obtain ⟨answer, hok⟩ := hgranted
      rw [hl x hx, show performUnder cond made stores x.1 x.2 = (.ok answer, _) from Prod.ext hok rfl]
      rfl
    · cases ht with
      | checkpoint | read => cases hx
      | call => rw [List.mem_singleton.mp hx]; rfl
  · refine Or.inr ⟨l, s, o, he, ha.trans ?_⟩
    rw [List.map_congr_left fun x hx => ?_]
    rcases Run.ends_cases he with ⟨rfl, -⟩ | ⟨_, target, c, _, e, _, -, rfl, hanswer, -⟩
    · cases hx
    · rw [hl x hx, List.mem_singleton.mp hx]
      rw [show performUnder cond made stores target c = _ from hanswer]
      rfl

end

/-! ## taking turns -/

/-- Who takes part in an interleaving: the files it reads, what befalls it, and what it is to apply. -/
structure Runner where
  text : String → Except FileError String
  cond : Conditions
  options : Options
  migrations : List MigrationFile

structure Attempt (ι : Type) where
  runner : ι
  call : Target × Call
  granted : Bool
  deriving DecidableEq

structure Crew (ι σ η : Type) where
  stores : Stores σ η
  standing : ι → Standing Run Summary

section

variable {ι σ η : Type} [DecidableEq ι] [TableStore σ] [TableStore η] (runners : ι → Runner)

def Crew.start (stores : Stores σ η) : Crew ι σ η :=
  ⟨stores, fun i => .under 0 (.start (runners i).options (runners i).migrations)⟩

def Crew.turn (w : Crew ι σ η) (i : ι) : List (Attempt ι) × Crew ι σ η :=
  match w.standing i with
  | .over _ => ([], w)
  | .under made r =>
    let turn := advance (fun _ => (runners i).text) (runners i).cond made w.stores r
    (turn.1.map fun x => ⟨i, x.1, x.2⟩, ⟨turn.2.1, Function.update w.standing i turn.2.2⟩)

def interleave : List ι → Crew ι σ η → List (Attempt ι) × Crew ι σ η
  | [], w => ([], w)
  | i :: schedule, w =>
    let turn := w.turn runners i
    let rest := interleave schedule turn.2
    (turn.1 ++ rest.1, rest.2)

theorem interleave_append (schedule later : List ι) (w : Crew ι σ η) :
    interleave runners (schedule ++ later) w =
      ((interleave runners schedule w).1 ++ (interleave runners later (interleave runners schedule w).2).1,
        (interleave runners later (interleave runners schedule w).2).2) := by
  induction schedule generalizing w with
  | nil => rfl
  | cons i schedule ih => simp only [List.cons_append, interleave, ih, List.append_assoc]

section

variable {runners} {w : Crew ι σ η} {i : ι}

theorem Crew.turn_over {o : Except MigrateError Summary} (h : w.standing i = .over o) :
    w.turn runners i = ([], w) := by
  simp only [Crew.turn, h]

variable (runners) in
/-- A runner's turn is a transition of its run, whose call is granted, or its end, whose call is not. -/
theorem Crew.turn_cases {made : Nat} {r : Run} (h : w.standing i = .under made r) :
    (∃ l b, Transition (fun _ => (runners i).text) (runners i).cond ⟨made, w.stores, r⟩ l b ∧
        w.turn runners i = (l.map (⟨i, ·, true⟩),
          ⟨b.stores, Function.update w.standing i (.under b.made b.state)⟩)) ∨
      ∃ l s o, Ends (fun _ => (runners i).text) (runners i).cond ⟨made, w.stores, r⟩ l s o ∧
        w.turn runners i = (l.map (⟨i, ·, false⟩), ⟨s, Function.update w.standing i (.over o)⟩) := by
  simp only [Crew.turn, h]
  rcases Run.advance_cases (fun _ => (runners i).text) (runners i).cond made w.stores r with
    ⟨l, b, ht, ha⟩ | ⟨l, s, o, he, ha⟩
  · exact Or.inl ⟨l, b, ht, by simp only [ha, List.map_map]; rfl⟩
  · exact Or.inr ⟨l, s, o, he, by simp only [ha, List.map_map]; rfl⟩

theorem Crew.standing_turn_ne {j : ι} (h : j ≠ i) : (w.turn runners i).2.standing j = w.standing j := by
  rw [Crew.turn]
  split
  · rfl
  · exact Function.update_of_ne h _ _

theorem interleave_over {j : ι} {o : Except MigrateError Summary} (h : w.standing j = .over o) (schedule : List ι) :
    (interleave runners schedule w).2.standing j = .over o := by
  induction schedule generalizing w with
  | nil => exact h
  | cons i schedule ih =>
    apply ih
    by_cases hi : j = i
    · subst hi
      rw [Crew.turn_over h]
      exact h
    · rw [Crew.standing_turn_ne hi]
      exact h

theorem interleave_replicate_over {o : Except MigrateError Summary} (h : w.standing i = .over o) (turns : Nat) :
    interleave runners (List.replicate turns i) w = ([], w) := by
  induction turns with
  | zero => rfl
  | succ turns ih => simp only [List.replicate_succ, interleave, Crew.turn_over h, ih, List.append_nil]

end

/-- A runner that takes all the turns does what it does by itself. -/
theorem interleave_alone (i : ι) (turns made : Nat) (r : Run) {w : Crew ι σ η} (h : w.standing i = .under made r) :
    let alone := follow (fun _ => (runners i).text) (runners i).cond turns made w.stores r
    let together := interleave runners (List.replicate turns i) w
    together.1.map (·.call) = alone.calls ∧ together.2.stores = alone.stores ∧
      (together.2.standing i).outcome = alone.outcome := by
  intro alone together
  induction turns generalizing made r w with
  | zero => exact ⟨rfl, rfl, congrArg Standing.outcome h⟩
  | succ turns ih =>
    have hcalls : ∀ (l : List (Target × Call)) (granted : Bool),
        (l.map fun x => (⟨i, x, granted⟩ : Attempt ι)).map (·.call) = l := by
      intro l granted
      simp [Function.comp_def]
    have htogether : together = ((w.turn runners i).1 ++
        (interleave runners (List.replicate turns i) (w.turn runners i).2).1,
          (interleave runners (List.replicate turns i) (w.turn runners i).2).2) := rfl
    rcases Crew.turn_cases runners h with ⟨l, b, ht, hturn⟩ | ⟨l, s, o, he, hturn⟩
    · have halone : alone = _ := ht.follow_succ turns
      obtain ⟨hrest, hstores, houtcome⟩ := ih b.made b.state (w := (w.turn runners i).2)
        (by rw [hturn]; exact Function.update_self i _ w.standing)
      rw [htogether, halone]
      rw [hturn] at hrest hstores houtcome ⊢
      refine ⟨?_, hstores, houtcome⟩
      rw [List.map_append, hcalls]
      exact congrArg (l ++ ·) hrest
    · have halone : alone = _ := he.follow_succ turns
      have hover : (w.turn runners i).2.standing i = .over o := by
        rw [hturn]; exact Function.update_self i _ w.standing
      rw [htogether, halone, interleave_replicate_over hover, hturn]
      refine ⟨?_, rfl, ?_⟩
      · rw [List.append_nil, hcalls]
      · exact congrArg Standing.outcome (Function.update_self i _ w.standing)

end

/-! ## who records a migration -/

/-- The migrations that a run has applied so far, or has reported in the end. -/
def Standing.applied : Standing Run Summary → List String
  | .under _ r => r.summary.applied
  | .over (.ok summary) => summary.applied
  | .over (.error _) => []

def Attempt.claims {ι : Type} (table id : String) (e : Attempt ι) : Bool :=
  e.granted && e.call = (.ledger, recordCall table (historyRecord id))

section

variable {σ η : Type} [TableStore σ] [TableStore η] {files : FileReader σ} {cond : Conditions} {a b : Config σ η Run}
  {l : List (Target × Call)}

theorem Run.applied_transition (ht : Transition files cond a l b) :
    b.state.summary.applied = a.state.summary.applied ∨
      ∃ id, l = [a.state.options.record id] ∧
        b.state.summary.applied = a.state.summary.applied ++ [id] := by
  have honward := onward ht
  generalize a.state = r at honward
  generalize b.state = r' at honward
  cases honward with
  | opening | reading | pausing | applying => exact Or.inl rfl
  | choosing found hs hw => cases found <;> exact Or.inl rfl
  | recording hs hx => exact Or.inr ⟨_, rfl, rfl⟩

theorem Run.applied_ends {s : Stores σ η} {summary : Summary} (he : Ends files cond a l s (.ok summary)) :
    summary = a.state.summary := by
  obtain ⟨-, -, hdone⟩ := he.of_ok
  have hturn := Run.turn a.state
  rw [show a.state.next = _ from hdone] at hturn
  cases hturn with
  | done => rfl

/-- A run whose record is refused because there is one ends with a conflict of the ledger. -/
theorem Run.conflict_of_record {r : Run} {guarded : Bool} {target : Target} {c : Call}
    {resume : Except StoreError c.Result → Except MigrateError Run} (hn : r.next = .call guarded target c resume)
    {table table' id : String} (hc : (target, c) = (.ledger, recordCall table (historyRecord id))) :
    resume (.error (.batchRejected 0 (.conflict table' (historyKey id)))) =
      .error (.migration id (.historyConflict id)) := by
  have hturn := r.turn
  rw [hn] at hturn
  cases hturn with
  | opening | choosing | applying => cases hc
  | recording =>
    cases hc
    rfl

end

/-- Runners none of whose operations reaches a migration's record in the ledger. -/
structure Crew.Steady {ι σ η : Type} [TableStore σ] [TableStore η] [MemoryLike σ] [MemoryLike η]
    (runners : ι → Runner) (id : String) (shared : Bool) (w : Crew ι σ η) : Prop where
  reachable : w.stores.Reachable
  isShared : w.stores.isShared = shared
  respects : ∀ i made r, w.standing i = .under made r →
    r.Respects (runners i).text shared (runners i).options (runners i).migrations id

section

variable {ι σ η : Type} [DecidableEq ι] [TableStore σ] [TableStore η] [MemoryLike σ] [MemoryLike η]
  {runners : ι → Runner} {table id : String} {shared : Bool} {w : Crew ι σ η}

omit [DecidableEq ι] in
theorem Crew.steady_start {stores : Stores σ η} (h : stores.Reachable)
    (hu : ∀ i, Unaddressed (runners i).text stores.isShared (runners i).options.historyTable (runners i).migrations id) :
    (Crew.start runners stores).Steady runners id stores.isShared where
  reachable := h
  isShared := rfl
  respects i made r hr := by
    cases hr
    exact Run.respects_start (hu i)

/-- However the calls of a turn leave the stores, it matters only how its runner comes to stand. -/
theorem Crew.Steady.update (h : w.Steady runners id shared) (i : ι) (cond : Conditions) (made : Nat)
    (l : List (Target × Call)) {standing : Standing Run Summary}
    (hi : ∀ made r, standing = .under made r →
      r.Respects (runners i).text shared (runners i).options (runners i).migrations id) :
    (⟨w.stores.replay cond made l, Function.update w.standing i standing⟩ : Crew ι σ η).Steady runners id shared where
  reachable := h.reachable.replay _ _ _
  isShared := (isShared_replay ..).trans h.isShared
  respects j made r hj := by
    have hj : Function.update w.standing i standing j = .under made r := hj
    by_cases hji : j = i
    · subst hji
      rw [Function.update_self] at hj
      exact hi made r hj
    · rw [Function.update_of_ne hji] at hj
      exact h.respects j made r hj

theorem Crew.Steady.turn (h : w.Steady runners id shared) (i : ι) : (w.turn runners i).2.Steady runners id shared := by
  rcases hs : w.standing i with ⟨made, r⟩ | o
  · rcases Crew.turn_cases runners hs with ⟨l, b, ht, hturn⟩ | ⟨l, s, o, he, hturn⟩
    · rw [hturn, ht.stores_eq]
      refine h.update i _ _ _ ?_
      rintro made' r' ⟨⟩
      exact (h.respects i made r hs).transition ht
    · rw [hturn, he.stores_eq]
      exact h.update i _ _ _ nofun
  · rw [Crew.turn_over hs]
    exact h

variable (ht : ∀ i, (runners i).options.historyTable = table)

include ht

/-- A turn writes a record where there is none, or writes none and leaves the record as it is. -/
theorem Crew.Steady.record? (h : w.Steady runners id shared) (i : ι) :
    ((w.turn runners i).1 = [⟨i, (.ledger, recordCall table (historyRecord id)), true⟩] ∧
        w.stores.record? table id = none ∧
        (w.turn runners i).2.stores.record? table id = some (historyRecord id)) ∨
      ((∀ e ∈ (w.turn runners i).1, e.claims table id = false) ∧
        (w.turn runners i).2.stores.record? table id = w.stores.record? table id) := by
  rcases hs : w.standing i with ⟨made, r⟩ | o
  · have hr := h.respects i made r hs
    rw [← h.isShared] at hr
    rcases Crew.turn_cases runners hs with ⟨l, b, hstep, hturn⟩ | ⟨l, s, o, he, hturn⟩
    · rw [hturn]
      have hgranted := (Path.single hstep).granted
      cases hstep with
      | checkpoint | read => exact Or.inr ⟨nofun, rfl⟩
      | @call guarded target c resume p hn hc hok =>
        obtain ⟨answer, hanswer⟩ := hgranted [] (target, c) [] rfl
        have hrecord := Stores.record?_askedUnder h.reachable (runners i).cond made (hr.asked hn)
        rw [ht i] at hrecord
        rcases hrecord with ⟨hx, -, hnone, hsome⟩ | ⟨hx, hsame⟩
        · refine Or.inl ⟨?_, hnone, hsome⟩
          rw [List.map_singleton, hx, Options.record, ht i]
        · refine Or.inr ⟨?_, hsame⟩
          intro e he
          rw [List.mem_singleton.mp he]
          by_cases hclaim : (target, c) = (.ledger, recordCall table (historyRecord id))
          · obtain ⟨e', herror⟩ := hx (by rw [hclaim, Options.record, ht i])
            cases herror.symm.trans hanswer
          · simp [Attempt.claims, hclaim]
    · rw [hturn]
      have hnone : ∀ e ∈ l.map fun x => (⟨i, x, false⟩ : Attempt ι), e.claims table id = false := by
        intro e he
        obtain ⟨x, -, rfl⟩ := List.mem_map.mp he
        rfl
      refine Or.inr ⟨hnone, ?_⟩
      rcases Run.ends_cases he with ⟨-, rfl⟩ | ⟨guarded, target, c, resume, e, e', hn, -, hanswer, -⟩
      · rfl
      · have hrecord := Stores.record?_askedUnder h.reachable (runners i).cond made (hr.asked hn)
        rw [ht i, show performUnder (runners i).cond made w.stores target c = (.error e, s) from hanswer] at hrecord
        rcases hrecord with ⟨-, ⟨answer, hok⟩, -⟩ | ⟨-, hsame⟩
        · cases hok
        · exact hsame
  · rw [Crew.turn_over hs]
    exact Or.inr ⟨nofun, rfl⟩

/-- A turn adds a migration only to what its own runner has applied, by writing the record. -/
theorem Crew.Steady.applied (h : w.Steady runners id shared) (i j : ι)
    (hid : id ∈ ((w.turn runners i).2.standing j).applied) :
    id ∈ (w.standing j).applied ∨ ∃ e ∈ (w.turn runners i).1, e.claims table id = true ∧ e.runner = j := by
  by_cases hj : j = i
  · subst hj
    rcases hs : w.standing j with ⟨made, r⟩ | o
    · rcases Crew.turn_cases runners hs with ⟨l, b, hstep, hturn⟩ | ⟨l, s, o, he, hturn⟩
      · have hoptions : r.options = (runners j).options := (h.respects j made r hs).2.1
        rw [hturn] at hid ⊢
        have hid : id ∈ b.state.summary.applied := by simpa [Standing.applied] using hid
        rcases Run.applied_transition hstep with hsame | ⟨k, hl, hmore⟩
        · rw [hsame] at hid
          exact Or.inl hid
        · rw [hmore] at hid
          rcases List.mem_append.mp hid with hid | hid
          · exact Or.inl hid
          · obtain rfl := List.mem_singleton.mp hid
            refine Or.inr ⟨⟨j, r.options.record id, true⟩, ?_, ?_, rfl⟩
            · rw [hl]
              exact List.mem_singleton.mpr rfl
            · simp [Attempt.claims, Options.record, hoptions, ht j]
      · rw [hturn] at hid
        rcases o with e | summary
        · simp [Standing.applied] at hid
        · have hid : id ∈ summary.applied := by simpa [Standing.applied] using hid
          rw [Run.applied_ends he] at hid
          exact Or.inl hid
    · rw [Crew.turn_over hs, hs] at hid
      exact Or.inl hid
  · rw [Crew.standing_turn_ne hj] at hid
    exact Or.inl hid

/-- Where there is a record, an attempt to write it is turned down and, unless it has failed for another reason, ends
    its run with a conflict of the ledger. -/
theorem Crew.Steady.conflict (h : w.Steady runners id shared) {row : Entity}
    (hrow : w.stores.record? table id = some row) (i : ι) {e : Attempt ι} (he : e ∈ (w.turn runners i).1)
    (hc : e.call = (.ledger, recordCall table (historyRecord id))) :
    e.granted = false ∧ ((runners e.runner).cond.fault = Conditions.calm.fault →
      (w.turn runners i).2.standing e.runner = .over (.error (.migration id (.historyConflict id)))) := by
  have hunclaimed : e.claims table id = false := by
    rcases h.record? ht i with ⟨-, hnone, -⟩ | ⟨hnone, -⟩
    · cases hrow.symm.trans hnone
    · exact hnone e he
  have hrefused : e.granted = false := by simpa [Attempt.claims, hc] using hunclaimed
  refine ⟨hrefused, ?_⟩
  rcases hs : w.standing i with ⟨made, r⟩ | o
  · rcases Crew.turn_cases runners hs with ⟨l, b, hstep, hturn⟩ | ⟨l, s, o, hend, hturn⟩
    · rw [hturn] at he
      obtain ⟨x, -, rfl⟩ := List.mem_map.mp he
      cases hrefused
    · rw [hturn] at he ⊢
      obtain ⟨x, hx, rfl⟩ := List.mem_map.mp he
      intro hcalm
      rcases Run.ends_cases hend with ⟨rfl, -⟩ | ⟨guarded, target, c, resume, e₁, e₂, hn, rfl, hanswer, hr, rfl⟩
      · cases hx
      · obtain rfl := List.mem_singleton.mp hx
        have hfault : (runners i).cond.fault (made + 1) = none := by
          rw [show (runners i).cond.fault = _ from hcalm]
          rfl
        have hcall : (target, c) = (.ledger, recordCall table (historyRecord id)) := hc
        cases hcall
        have he₁ : e₁ = .batchRejected 0 (.conflict table (historyKey id)) := by
          have hperform := congrArg Prod.fst hanswer
          simp only [performUnder, hfault, Stores.refused_record h.reachable hrow] at hperform
          cases hperform
          rfl
        rw [he₁, Run.conflict_of_record hn rfl] at hr
        cases hr
        exact Function.update_self i _ w.standing
  · rw [Crew.turn_over hs] at he
    cases he

/-! ## any schedule -/

omit ht in
theorem Crew.Steady.interleave (h : w.Steady runners id shared) (schedule : List ι) :
    (interleave runners schedule w).2.Steady runners id shared := by
  induction schedule generalizing w with
  | nil => exact h
  | cons i schedule ih => exact ih (h.turn i)

/-- Under any schedule a record is written once where there is none, or not at all. -/
theorem Crew.Steady.record?_interleave (h : w.Steady runners id shared) (schedule : List ι) :
    ((TableMigrations.interleave runners schedule w).1.countP (Attempt.claims table id) = 1 ∧
        w.stores.record? table id = none ∧
        (TableMigrations.interleave runners schedule w).2.stores.record? table id = some (historyRecord id)) ∨
      ((TableMigrations.interleave runners schedule w).1.countP (Attempt.claims table id) = 0 ∧
        (TableMigrations.interleave runners schedule w).2.stores.record? table id = w.stores.record? table id) := by
  induction schedule generalizing w with
  | nil => exact Or.inr ⟨rfl, rfl⟩
  | cons i schedule ih =>
    simp only [TableMigrations.interleave, List.countP_append]
    rcases h.record? ht i with ⟨hwritten, hnone, hsome⟩ | ⟨hunclaimed, hsame⟩
    · have hone : (w.turn runners i).1.countP (Attempt.claims table id) = 1 := by
        rw [hwritten]
        simp [Attempt.claims]
      rcases ih (h.turn i) with ⟨-, habsurd, -⟩ | ⟨hzero, hkept⟩
      · cases hsome.symm.trans habsurd
      · exact Or.inl ⟨by omega, hnone, hkept.trans hsome⟩
    · have hzero : (w.turn runners i).1.countP (Attempt.claims table id) = 0 := by
        rw [List.countP_eq_zero]
        intro e he
        simp [hunclaimed e he]
      rcases ih (h.turn i) with ⟨hone, hnone, hsome⟩ | ⟨hnone, hkept⟩
      · exact Or.inl ⟨by omega, hsame.symm.trans hnone, hsome⟩
      · exact Or.inr ⟨by omega, hkept.trans hsame⟩

/-- Under any schedule a runner applies a migration by writing its record. -/
theorem Crew.Steady.applied_interleave (h : w.Steady runners id shared) (schedule : List ι) {j : ι}
    (hid : id ∈ ((TableMigrations.interleave runners schedule w).2.standing j).applied) :
    id ∈ (w.standing j).applied ∨
      ∃ e ∈ (TableMigrations.interleave runners schedule w).1, e.claims table id = true ∧ e.runner = j := by
  induction schedule generalizing w with
  | nil => exact Or.inl hid
  | cons i schedule ih =>
    rcases ih (h.turn i) hid with hid | ⟨e, he, hclaims, hj⟩
    · rcases h.applied ht i j hid with hid | ⟨e, he, hclaims, hj⟩
      · exact Or.inl hid
      · exact Or.inr ⟨e, List.mem_append_left _ he, hclaims, hj⟩
    · exact Or.inr ⟨e, List.mem_append_right _ he, hclaims, hj⟩

/-- Where there is a record, every later attempt to write it is turned down. -/
theorem Crew.Steady.conflict_interleave (h : w.Steady runners id shared) {row : Entity}
    (hrow : w.stores.record? table id = some row) (schedule : List ι) {e : Attempt ι}
    (he : e ∈ (TableMigrations.interleave runners schedule w).1)
    (hc : e.call = (.ledger, recordCall table (historyRecord id))) :
    e.granted = false ∧ ((runners e.runner).cond.fault = Conditions.calm.fault →
      (TableMigrations.interleave runners schedule w).2.standing e.runner =
        .over (.error (.migration id (.historyConflict id)))) := by
  induction schedule generalizing w with
  | nil => cases he
  | cons i schedule ih =>
    rcases List.mem_append.mp he with he | he
    · obtain ⟨hrefused, hover⟩ := h.conflict ht hrow i he hc
      exact ⟨hrefused, fun hcalm => interleave_over (hover hcalm) schedule⟩
    · have hkept : (w.turn runners i).2.stores.record? table id = some row := by
        rcases h.record? ht i with ⟨-, hnone, -⟩ | ⟨-, hsame⟩
        · cases hrow.symm.trans hnone
        · exact hsame.trans hrow
      exact ih (h.turn i) hkept he

end

theorem eq_of_countP_le_one {α : Type} {p : α → Bool} {l : List α} (h : l.countP p ≤ 1) {a b : α} (ha : a ∈ l)
    (hb : b ∈ l) (hpa : p a = true) (hpb : p b = true) : a = b := by
  rw [List.countP_eq_length_filter] at h
  have ha : a ∈ l.filter p := List.mem_filter.mpr ⟨ha, hpa⟩
  have hb : b ∈ l.filter p := List.mem_filter.mpr ⟨hb, hpb⟩
  match hl : l.filter p with
  | [] => rw [hl] at ha; cases ha
  | [x] =>
    rw [hl] at ha hb
    rw [List.mem_singleton.mp ha, List.mem_singleton.mp hb]
  | x :: y :: r =>
    rw [hl] at h
    simp at h

section

variable {ι σ η : Type} [DecidableEq ι] [TableStore σ] [TableStore η] [MemoryLike σ] [MemoryLike η]

/-- Runs that go on at once never claim a migration twice. Any number of runners share stores and one ledger, which
    their operations leave alone, and take turns in any order, each with its own files, options and fate. For every
    migration: its record is written at most once; at most one runner applies it; and once the record is written, it is
    there unchanged from then on, and whoever tries to write it later is turned down and, if it fails for no other
    reason, ends with a conflict of the ledger. -/
theorem claimed_once (runners : ι → Runner) {table : String} (ht : ∀ i, (runners i).options.historyTable = table)
    {stores : Stores σ η} (h : stores.Reachable)
    (hl : ∀ i, ∀ m ∈ (runners i).migrations, Unobtrusive (runners i).text stores table m) (schedule later : List ι)
    (id : String) :
    let before := interleave runners schedule (.start runners stores)
    let after := interleave runners later before.2
    (before.1 ++ after.1).countP (Attempt.claims table id) ≤ 1 ∧
    (∀ i j, id ∈ (before.2.standing i).applied → id ∈ (after.2.standing j).applied → i = j) ∧
    ((∃ e ∈ before.1, e.claims table id = true) →
      before.2.stores.record? table id = some (historyRecord id) ∧
      after.2.stores.record? table id = some (historyRecord id) ∧
      ∀ e ∈ after.1, e.call = (.ledger, recordCall table (historyRecord id)) →
        e.granted = false ∧ ((runners e.runner).cond.fault = Conditions.calm.fault →
          after.2.standing e.runner = .over (.error (.migration id (.historyConflict id))))) := by
  intro before after
  have hstart : (Crew.start runners stores).Steady runners id stores.isShared := by
    apply Crew.steady_start h
    intro i
    rw [ht i]
    exact Unobtrusive.unaddressed (hl i) id
  have hbefore := hstart.interleave schedule
  have hwhole : interleave runners (schedule ++ later) (.start runners stores) =
      (before.1 ++ after.1, after.2) := interleave_append runners schedule later _
  have hcount : (before.1 ++ after.1).countP (Attempt.claims table id) ≤ 1 := by
    have := hstart.record?_interleave ht (schedule ++ later)
    rw [hwhole] at this
    rcases this with ⟨hone, -⟩ | ⟨hzero, -⟩
    · exact Nat.le_of_eq hone
    · exact (Nat.le_of_eq hzero).trans (Nat.zero_le 1)
  have hclaimed : ∀ {s : List ι} {j : ι},
      id ∈ ((interleave runners s (.start runners stores)).2.standing j).applied →
      ∃ e ∈ (interleave runners s (.start runners stores)).1,
        e.claims table id = true ∧ e.runner = j := by
    intro s j hid
    exact (hstart.applied_interleave ht s hid).resolve_left List.not_mem_nil
  refine ⟨hcount, ?_, ?_⟩
  · intro i j hi hj
    obtain ⟨e, he, hclaims, rfl⟩ := hclaimed hi
    have hj : id ∈ ((interleave runners (schedule ++ later) (.start runners stores)).2.standing
        j).applied := by
      rw [hwhole]
      exact hj
    obtain ⟨e', he', hclaims', rfl⟩ := hclaimed hj
    rw [hwhole] at he'
    rw [eq_of_countP_le_one hcount (List.mem_append_left _ he) he' hclaims hclaims']
  · rintro ⟨e, he, hclaims⟩
    have hrecorded : before.2.stores.record? table id = some (historyRecord id) := by
      rcases hstart.record?_interleave ht schedule with ⟨-, -, hsome⟩ | ⟨hzero, -⟩
      · exact hsome
      · exact absurd hclaims (List.countP_eq_zero.mp hzero e he)
    refine ⟨hrecorded, ?_, fun e he hc => hbefore.conflict_interleave ht hrecorded later he hc⟩
    rcases hbefore.record?_interleave ht later with ⟨-, hnone, -⟩ | ⟨-, hkept⟩
    · cases hrecorded.symm.trans hnone
    · exact hkept.trans hrecorded

end

/-! ## two runners -/

/-- Both are to apply a migration that writes a row whether there is one or not. -/
def twoRunners (_ : Bool) : Runner :=
  ⟨fun _ => .ok "UPSERTM t p r a|1|NUMBER", .calm, .ofDirectory "m", [⟨"1", "1.mig", "m/1.mig"⟩]⟩

/-- They take turns. Both find the migration unrecorded and carry it out; the one that comes first records it, the other
    is turned down. -/
theorem claimed_once_of_two :
    let stores : Stores MemoryStore MemoryStore := .shared .empty
    let before := interleave twoRunners
      [false, true, false, true, false, true, false, true, false, true, false] (.start twoRunners stores)
    let after := interleave twoRunners [true, false] before.2
    let record : Target × Call := (.ledger, recordCall "MigrationHistories" (historyRecord "1"))
    (∀ i, (twoRunners i).options.historyTable = "MigrationHistories") ∧ stores.Reachable ∧
      (∀ i, ∀ m ∈ (twoRunners i).migrations, Unobtrusive (twoRunners i).text stores "MigrationHistories" m) ∧
      (⟨false, record, true⟩ : Attempt Bool) ∈ before.1 ∧ (⟨true, record, false⟩ : Attempt Bool) ∈ after.1 ∧
      (after.2.standing false).applied = ["1"] ∧
      after.2.standing true = .over (.error (.migration "1" (.historyConflict "1"))) ∧
      after.2.stores.record? "MigrationHistories" "1" = some (historyRecord "1") := by
  intro stores before after record
  have ht : ∀ i, (twoRunners i).options.historyTable = "MigrationHistories" := fun _ => rfl
  have hr : stores.Reachable := ReachableFrom.refl
  have hl : ∀ i, ∀ m ∈ (twoRunners i).migrations,
      Unobtrusive (twoRunners i).text stores "MigrationHistories" m := by
    intro i m hm ops hops _ op hop
    cases List.mem_singleton.mp hm
    cases hops
    cases List.mem_singleton.mp hop
    decide
  have hfirst : (⟨false, record, true⟩ : Attempt Bool) ∈ before.1 := by decide +kernel
  have hsecond : (⟨true, record, false⟩ : Attempt Bool) ∈ after.1 := by decide +kernel
  obtain ⟨-, -, hlater⟩ := claimed_once twoRunners ht hr hl
    [false, true, false, true, false, true, false, true, false, true, false] [true, false] "1"
  obtain ⟨-, hkept, hrefused⟩ := hlater ⟨_, hfirst, by decide⟩
  exact ⟨ht, hr, hl, hfirst, hsecond, by decide +kernel, (hrefused _ hsecond rfl).2 rfl, hkept⟩

end TableMigrations
