/-
  TableMigrations.Work — work on a state that can fail.
-/

namespace TableMigrations

/-- Work on a state; what was done before a failure stays done. -/
abbrev Work (ε σ : Type) := ExceptT ε (StateM σ)

def Work.on {ε σ α : Type} (w : Work ε σ α) (s : σ) : Except ε α × σ := w.run.run s

namespace Work

variable {ε σ α β : Type} {s t : σ}

@[simp] theorem on_mk (w : StateM σ (Except ε α)) : Work.on (ExceptT.mk w) s = w s := rfl

@[simp] theorem on_pure (a : α) : (pure a : Work ε σ α).on s = (.ok a, s) := rfl

@[simp] theorem on_throw (e : ε) : (throw e : Work ε σ α).on s = (.error e, s) := rfl

@[simp] theorem on_get (f : σ → Work ε σ β) : (get >>= f).on s = (f s).on s := rfl

@[simp] theorem on_set : (set t : Work ε σ Unit).on s = (.ok (), t) := rfl

@[simp] theorem on_set_bind (f : Unit → Work ε σ β) : (set t >>= f).on s = (f ()).on t := rfl

@[simp] theorem on_modify (f : σ → σ) : (modify f : Work ε σ Unit).on s = (.ok (), f s) := rfl

@[simp] theorem on_modify_bind (f : σ → σ) (g : Unit → Work ε σ β) : (modify f >>= g).on s = (g ()).on (f s) := rfl

@[simp] theorem on_lift (x : Except ε α) : (liftM x : Work ε σ α).on s = (x, s) := rfl

@[simp] theorem on_lift_bind (x : Except ε α) (f : α → Work ε σ β) : ((liftM x : Work ε σ α) >>= f).on s =
    match x with
    | .ok a => (f a).on s
    | .error e => (.error e, s) := by
  cases x <;> rfl

theorem on_bind_ok {w : Work ε σ α} {a : α} (h : w.on s = (.ok a, t)) (f : α → Work ε σ β) :
    (w >>= f).on s = (f a).on t := by
  simp only [on, ExceptT.run_bind, StateT.run_bind] at h ⊢
  rw [h]
  rfl

theorem on_bind_error {w : Work ε σ α} {e : ε} (h : w.on s = (.error e, t)) (f : α → Work ε σ β) :
    (w >>= f).on s = (.error e, t) := by
  simp only [on, ExceptT.run_bind, StateT.run_bind] at h ⊢
  rw [h]
  rfl

@[simp] theorem on_map (f : α → β) (w : Work ε σ α) : (f <$> w).on s =
    match w.on s with
    | (.ok a, t) => (.ok (f a), t)
    | (.error e, t) => (.error e, t) := by
  rcases h : w.on s with ⟨_ | _, _⟩
  · exact on_bind_error h fun a => pure (f a)
  · exact on_bind_ok h fun a => pure (f a)

theorem on_tryCatch (w : Work ε σ α) (handle : ε → Work ε σ α) : (tryCatch w handle).on s =
    match w.on s with
    | (.ok a, t) => (.ok a, t)
    | (.error e, t) => (handle e).on t := by
  show Work.on (ExceptT.tryCatch w handle) s = _
  simp only [ExceptT.tryCatch, on_mk]
  rcases h : w.on s with ⟨_ | _, t⟩
  all_goals
    simp only [Work.on, ExceptT.run, StateT.run] at h
    simp only [bind, StateT.bind, h]
    rfl

theorem on_adapt {ε' : Type} (f : ε → ε') (w : Work ε σ α) :
    Work.on (ExceptT.adapt f w) s = ((w.on s).1.mapError f, (w.on s).2) := rfl

end Work

end TableMigrations
