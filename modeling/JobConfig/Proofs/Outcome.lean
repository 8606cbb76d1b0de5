import Mathlib.Data.List.Forall2

/-!
# Outcomes

What the proofs need of computations that may fail: `ok_bind` and `error_bind` run a step whose
outcome is known, and `bind_eq_ok` and `map_eq_ok` take a computation that succeeded apart. A list
of computations is run one by one (`mapM_eq_ok_iff`), and a list is worked through up to the first
step that fails (`foldlM_eq_error_iff`). `failure?` is the error of a computation that failed; of
two that are run one after the other it is the first one's, if there is one (`failure?_both`).
-/

namespace JobConfig

variable {ε α β γ : Type}

@[simp] theorem ok_bind (a : α) (f : α → Except ε β) : (Except.ok a >>= f) = f a := rfl

@[simp] theorem error_bind (e : ε) (f : α → Except ε β) : (Except.error e >>= f) = .error e := rfl

@[simp] theorem pure_eq_ok_iff {a b : α} : (pure a : Except ε α) = .ok b ↔ a = b :=
  ⟨Except.ok.inj, congrArg _⟩

/-- A computation succeeds exactly when both of its steps do. -/
theorem bind_eq_ok {x : Except ε α} {f : α → Except ε β} {b : β} :
    (x >>= f) = .ok b ↔ ∃ a, x = .ok a ∧ f a = .ok b := by
  cases x <;> simp

theorem map_eq_ok {x : Except ε α} {f : α → β} {b : β} :
    f <$> x = .ok b ↔ ∃ a, x = .ok a ∧ f a = b := by
  cases x <;> simp

/-- A computation fails as the first of its steps that does. -/
theorem bind_eq_error {x : Except ε α} {f : α → Except ε β} {e : ε} :
    (x >>= f) = .error e ↔ x = .error e ∨ ∃ a, x = .ok a ∧ f a = .error e := by
  cases x <;> simp

@[simp] theorem mapError_ok {ε' : Type} (f : ε → ε') (a : α) :
    (Except.ok a : Except ε α).mapError f = .ok a := rfl

@[simp] theorem mapError_error {ε' : Type} (f : ε → ε') (e : ε) :
    (Except.error e : Except ε α).mapError f = .error (f e) := rfl

/-- An error that is told in other words is still an error. -/
@[simp] theorem mapError_eq_ok {ε' : Type} {x : Except ε α} {f : ε → ε'} {a : α} :
    x.mapError f = .ok a ↔ x = .ok a := by
  cases x <;> simp

theorem mapError_eq_error {ε' : Type} {x : Except ε α} {f : ε → ε'} {e : ε'} :
    x.mapError f = .error e ↔ ∃ c, x = .error c ∧ f c = e := by
  cases x <;> simp

/-! ## Lists of computations -/

/-- A list of computations gives the results of each of them, in order. -/
theorem mapM_eq_ok_iff {f : α → Except ε β} {as : List α} {bs : List β} :
    as.mapM f = .ok bs ↔ List.Forall₂ (fun a b => f a = .ok b) as bs := by
  induction as generalizing bs with
  | nil =>
    rw [List.mapM_nil, pure_eq_ok_iff, List.forall₂_nil_left_iff, eq_comm]
  | cons a as ih =>
    simp only [List.mapM_cons, bind_eq_ok, ih, pure_eq_ok_iff, List.forall₂_cons_left_iff]
    constructor
    · rintro ⟨b, hb, bs, hbs, rfl⟩
      exact ⟨b, bs, hb, hbs, rfl⟩
    · rintro ⟨b, bs, hb, hbs, rfl⟩
      exact ⟨b, hb, bs, hbs, rfl⟩

theorem exists_forall₂_iff {r : α → β → Prop} {as : List α} :
    (∃ bs, List.Forall₂ r as bs) ↔ ∀ a ∈ as, ∃ b, r a b := by
  induction as with
  | nil => simp
  | cons a as ih =>
    rw [List.forall_mem_cons, ← ih]
    simp only [List.forall₂_cons_left_iff]
    constructor
    · rintro ⟨_, b, bs, hb, hbs, rfl⟩
      exact ⟨⟨b, hb⟩, bs, hbs⟩
    · rintro ⟨⟨b, hb⟩, bs, hbs⟩
      exact ⟨b :: bs, b, bs, hb, hbs, rfl⟩

/-- A list of computations succeeds exactly when each of them does. -/
theorem exists_mapM_iff {f : α → Except ε β} {as : List α} :
    (∃ bs, as.mapM f = .ok bs) ↔ ∀ a ∈ as, ∃ b, f a = .ok b := by
  simp only [mapM_eq_ok_iff, exists_forall₂_iff]

theorem exists_of_mem_forall₂ {r : α → β → Prop} {as : List α} {bs : List β}
    (h : List.Forall₂ r as bs) {b : β} (hb : b ∈ bs) : ∃ a ∈ as, r a b := by
  induction h with
  | nil => cases hb
  | @cons a _ as _ h _ ih =>
    rcases List.mem_cons.mp hb with rfl | hb
    · exact ⟨a, List.mem_cons_self, h⟩
    · obtain ⟨a, ha, h⟩ := ih hb
      exact ⟨a, List.mem_cons_of_mem _ ha, h⟩

theorem getElem?_of_forall₂ {r : α → β → Prop} {as : List α} {bs : List β}
    (h : List.Forall₂ r as bs) (i : Nat) : Option.Rel r as[i]? bs[i]? := by
  induction h generalizing i with
  | nil => exact .none
  | cons h _ ih =>
    cases i with
    | zero => exact .some h
    | succ i => exact ih i

/-- What holds of one of two related lists, item by item, holds of the other. -/
theorem forall₂_transfer {r : α → β → Prop} {p : α → γ → Prop} {q : β → γ → Prop} {as : List α}
    {bs : List β} {cs : List γ} (h : List.Forall₂ r as bs) (hp : List.Forall₂ p as cs)
    (hq : ∀ {a b c}, r a b → p a c → q b c) : List.Forall₂ q bs cs := by
  induction h generalizing cs with
  | nil =>
    cases hp
    exact .nil
  | cons h _ ih =>
    cases hp with
    | cons hp hps => exact .cons (hq h hp) (ih hps)

/-- Computations on related lists that agree item by item agree. -/
theorem mapM_congr {r : α → β → Prop} {f : α → Except ε γ} {g : β → Except ε γ} {as : List α}
    {bs : List β} (h : List.Forall₂ r as bs) (hf : ∀ {a b}, r a b → f a = g b) :
    as.mapM f = bs.mapM g := by
  induction h with
  | nil => rfl
  | cons h _ ih => rw [List.mapM_cons, List.mapM_cons, hf h, ih]

/-- Each result of a list of computations is the result of one of them. -/
theorem exists_of_mem_mapM {f : α → Except ε β} {as : List α} {bs : List β}
    (h : as.mapM f = .ok bs) {b : β} (hb : b ∈ bs) : ∃ a ∈ as, f a = .ok b :=
  exists_of_mem_forall₂ (mapM_eq_ok_iff.mp h) hb

/-- The first of a list of computations that fails: its place and its error. -/
def FirstFails (f : α → Except ε β) (as : List α) (i : Nat) (e : ε) : Prop :=
  (∃ a, as[i]? = some a ∧ f a = .error e) ∧ ∀ j < i, ∀ a, as[j]? = some a → ∃ b, f a = .ok b

theorem not_firstFails_nil {f : α → Except ε β} {i : Nat} {e : ε} : ¬ FirstFails f [] i e := by
  rintro ⟨⟨a, ha, -⟩, -⟩
  cases ha

theorem firstFails_cons_zero {f : α → Except ε β} {a : α} {as : List α} {e : ε} :
    FirstFails f (a :: as) 0 e ↔ f a = .error e := by
  simp [FirstFails]

theorem firstFails_cons_succ {f : α → Except ε β} {a : α} {as : List α} {i : Nat} {e : ε} :
    FirstFails f (a :: as) (i + 1) e ↔ (∃ b, f a = .ok b) ∧ FirstFails f as i e := by
  have hj : (∀ j < i + 1, ∀ x, (a :: as)[j]? = some x → ∃ b, f x = .ok b) ↔
      (∃ b, f a = .ok b) ∧ ∀ j < i, ∀ x, as[j]? = some x → ∃ b, f x = .ok b := by
    constructor
    · intro h
      exact ⟨h 0 (Nat.succ_pos i) a rfl, fun j hj => h (j + 1) (Nat.succ_lt_succ hj)⟩
    · rintro ⟨ha, has⟩ (_ | j) hj x hx
      · cases hx
        exact ha
      · exact has j (Nat.lt_of_succ_lt_succ hj) x hx
  rw [FirstFails, FirstFails, hj, List.getElem?_cons_succ]
  exact and_left_comm

/-- A list of computations fails as the first of them that does. -/
theorem mapM_eq_error_iff {f : α → Except ε β} {as : List α} {e : ε} :
    as.mapM f = .error e ↔ ∃ i, FirstFails f as i e := by
  induction as with
  | nil => simp [not_firstFails_nil, pure, Except.pure]
  | cons a as ih =>
    rw [← Nat.or_exists_add_one, List.mapM_cons, bind_eq_error, firstFails_cons_zero]
    simp only [firstFails_cons_succ, exists_and_left, ← ih]
    refine or_congr_right ?_
    constructor
    · rintro ⟨b, hb, h⟩
      rcases bind_eq_error.mp h with h | ⟨bs, -, h⟩
      · exact ⟨⟨b, hb⟩, h⟩
      · cases h
    · rintro ⟨⟨b, hb⟩, h⟩
      exact ⟨b, hb, by rw [h, error_bind]⟩

/-- A list is worked through up to the first step that fails. -/
theorem foldlM_eq_error_iff {f : β → α → Except ε β} {as : List α} {b : β} {e : ε} :
    as.foldlM f b = .error e ↔
      ∃ front a b', front ++ [a] <+: as ∧ front.foldlM f b = .ok b' ∧ f b' a = .error e := by
  constructor
  · intro h
    induction as generalizing b with
    | nil => cases h
    | cons a as ih =>
      rw [List.foldlM_cons] at h
      cases hb : f b a with
      | error e' =>
        rw [hb] at h
        cases h
        exact ⟨[], a, b, ⟨as, rfl⟩, rfl, hb⟩
      | ok b₁ =>
        rw [hb, ok_bind] at h
        obtain ⟨front, x, b', hp, hf, hx⟩ := ih h
        refine ⟨a :: front, x, b', List.cons_prefix_cons.mpr ⟨rfl, hp⟩, ?_, hx⟩
        rw [List.foldlM_cons, hb, ok_bind, hf]
  · rintro ⟨front, a, b', ⟨back, rfl⟩, hf, ha⟩
    rw [List.append_assoc, List.foldlM_append, hf, ok_bind, List.singleton_append,
      List.foldlM_cons, ha, error_bind]

/-! ## Failures -/

/-- The error of a computation that failed. -/
def failure? : Except ε α → Option ε
  | .ok _ => none
  | .error e => some e

@[simp] theorem failure?_ok (a : α) : failure? (.ok a : Except ε α) = none := rfl

@[simp] theorem failure?_error (e : ε) : failure? (.error e : Except ε α) = some e := rfl

@[simp] theorem failure?_map (f : α → β) (x : Except ε α) : failure? (f <$> x) = failure? x := by
  cases x <;> rfl

theorem failure?_both (x : Except ε α) (y : Except ε β) (f : α → β → γ) :
    failure? (do let a ← x; let b ← y; pure (f a b)) = (failure? x).or (failure? y) := by
  cases x <;> cases y <;> rfl

theorem failure?_eq_none_iff {x : Except ε α} : failure? x = none ↔ ∃ a, x = .ok a := by
  cases x <;> simp

theorem failure?_eq_some_iff {x : Except ε α} {e : ε} : failure? x = some e ↔ x = .error e := by
  cases x <;> simp

end JobConfig
