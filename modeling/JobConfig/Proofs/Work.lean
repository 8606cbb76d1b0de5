import JobConfig.Proofs.Outcome

/-!
# Work in place

`Work` is what is done to a state step by step and may fail. It goes on with the state that it has
come to (`Work.on_bind`), and nothing is undone: what it has changed before it fails stays changed.
Work that comes to the same on two kinds of state, one item at a time, comes to the same on a list
of items (`Work.on_forM_of_map`). `Work.expected` is what remains of work that changes nothing
before it fails.
-/

namespace JobConfig

/-- Work on a state that can fail. What it has changed until then stays changed. -/
abbrev Work (σ ε : Type) := ExceptT ε (StateM σ)

namespace Work

variable {σ τ ε α β : Type}

/-- The outcome of the work, and the state that it leaves. -/
def on (x : Work σ ε α) (s : σ) : Except ε α × σ :=
  x.run.run s

/-- An outcome that has nothing to do with the state. -/
def settled (x : Except ε α) : Work σ ε α :=
  ExceptT.mk (pure x)

/-- Work on a part of the state. What becomes of the part is put back, however the work ends. -/
def within (part : τ) (put : σ → τ → σ) (x : Work τ ε α) : Work σ ε α :=
  ExceptT.mk fun s => ((x.on part).1, put s (x.on part).2)

/-- The outcome of work on a state of its own. -/
def apart (x : Work τ ε Unit) (start : τ) : Except ε τ :=
  (fun _ => (x.on start).2) <$> (x.on start).1

@[simp] theorem on_settled (x : Except ε α) (s : σ) : (settled x : Work σ ε α).on s = (x, s) := rfl

@[simp] theorem on_throw (e : ε) (s : σ) : (throw e : Work σ ε α).on s = (.error e, s) := rfl

@[simp] theorem on_get (s : σ) : (get : Work σ ε σ).on s = (.ok s, s) := rfl

@[simp] theorem on_modify (f : σ → σ) (s : σ) :
    (modify f : Work σ ε Unit).on s = (.ok (), f s) := rfl

@[simp] theorem on_within (part : τ) (put : σ → τ → σ) (x : Work τ ε α) (s : σ) :
    (within part put x).on s = ((x.on part).1, put s (x.on part).2) := rfl

@[simp] theorem on_adapt {ε' : Type} (f : ε → ε') (x : Work σ ε α) (s : σ) :
    Work.on (ExceptT.adapt f x) s = ((x.on s).1.mapError f, (x.on s).2) := rfl

/-- Work goes on with the state that it has come to, unless it has failed. -/
theorem on_bind (x : Work σ ε α) (f : α → Work σ ε β) (s : σ) :
    (x >>= f).on s = match x.on s with
      | (.ok a, s') => (f a).on s'
      | (.error e, s') => (.error e, s') := by
  unfold on ExceptT.run StateT.run
  simp only [bind, ExceptT.bind, ExceptT.mk, StateT.bind, ExceptT.bindCont]
  rcases x s with ⟨_ | _, s'⟩ <;> rfl

theorem on_forM_cons (x : β → Work σ ε Unit) (b : β) (bs : List β) (s : σ) :
    ((b :: bs).forM x).on s = (x b >>= fun _ => bs.forM x).on s := rfl

/-- What work on one kind of state makes of an item, work on another makes of it; then so it is with
any number of items. -/
theorem on_forM_of_map {f : σ → τ} {x : β → Work σ ε Unit} {y : β → Work τ ε Unit}
    (h : ∀ b s, (y b).on (f s) = ((x b).on s).map id f) (bs : List β) (s : σ) :
    (bs.forM y).on (f s) = ((bs.forM x).on s).map id f := by
  induction bs generalizing s with
  | nil => rfl
  | cons b bs ih =>
    rw [on_forM_cons, on_forM_cons, on_bind, on_bind, h]
    rcases (x b).on s with ⟨_ | _, s'⟩
    · rfl
    · exact ih s'

theorem apart_forM_of_map {f : σ → τ} {x : β → Work σ ε Unit} {y : β → Work τ ε Unit}
    (h : ∀ b s, (y b).on (f s) = ((x b).on s).map id f) (bs : List β) (s : σ) :
    apart (bs.forM y) (f s) = f <$> apart (bs.forM x) s := by
  rw [apart, apart, on_forM_of_map h]
  rcases (bs.forM x).on s with ⟨_ | _, s'⟩ <;> rfl

/-- The outcome and the state that work should come to: the state is as it was when it fails. -/
def expected (s : σ) : Except ε (σ × α) → Except ε α × σ
  | .ok (s', a) => (.ok a, s')
  | .error e => (.error e, s)

/-- Work that begins with an outcome goes on from there, or has changed nothing. -/
theorem on_settled_bind {x : Except ε α} {f : α → Work σ ε β} {g : α → Except ε (σ × β)} {s : σ}
    (h : ∀ a, x = .ok a → (f a).on s = expected s (g a)) :
    (settled x >>= f).on s = expected s (x >>= g) := by
  rw [on_bind, on_settled]
  cases x with
  | error e => rfl
  | ok a => exact h a rfl

/-- So does work that first looks at the state. -/
theorem on_get_settled_bind {x : σ → Except ε α} {f : α → Work σ ε β}
    {g : α → Except ε (σ × β)} {s : σ} (h : ∀ a, x s = .ok a → (f a).on s = expected s (g a)) :
    Work.on (get >>= fun s => settled (x s) >>= f) s = expected s (x s >>= g) :=
  on_settled_bind h

end Work

end JobConfig
