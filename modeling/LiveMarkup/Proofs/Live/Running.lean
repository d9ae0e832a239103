import LiveMarkup.Live.Calling

/-!
# Running operations

What holds after an operation has run from a state. An operation that can be refused is run down
to its outcome, a result or a fault.

* `After.bind`, `After.act_bind`: one operation after the other;
* `After.forM`, `After.foldlM`: loops, by a condition that every round keeps;
* `Keeps`: operations that keep a condition whenever they run.
-/

namespace LiveMarkup.Live

variable {κ σ α β : Type} {l : Live κ σ}

/-- The outcome of an operation and the state that it leaves meet a condition. -/
def After (op : LiveM κ σ α) (l : Live κ σ) (post : α → Live κ σ → Prop) : Prop :=
  post (op.run l).1 (op.run l).2

/-! ## Operations that cannot be refused -/

@[simp]
theorem after_pure {a : α} {post : α → Live κ σ → Prop} :
    After (pure a) l post ↔ post a l := Iff.rfl

@[simp]
theorem after_bind {op : LiveM κ σ α} {f : α → LiveM κ σ β} {post : β → Live κ σ → Prop} :
    After (op >>= f) l post ↔ After op l fun a l' => After (f a) l' post := Iff.rfl

@[simp]
theorem after_get {post : Live κ σ → Live κ σ → Prop} :
    After get l post ↔ post l l := Iff.rfl

@[simp]
theorem after_modify {f : Live κ σ → Live κ σ} {post : PUnit → Live κ σ → Prop} :
    After (modify f) l post ↔ post ⟨⟩ (f l) := Iff.rfl

@[simp]
theorem after_modifyGet {f : Live κ σ → α × Live κ σ} {post : α → Live κ σ → Prop} :
    After (modifyGet f) l post ↔ post (f l).1 (f l).2 := Iff.rfl

theorem After.mono {op : LiveM κ σ α} {post post' : α → Live κ σ → Prop} (h : After op l post)
    (hPost : ∀ a l', post a l' → post' a l') : After op l post' :=
  hPost _ _ h

theorem After.bind {op : LiveM κ σ α} {f : α → LiveM κ σ β} {m : α → Live κ σ → Prop}
    {post : β → Live κ σ → Prop} (h : After op l m)
    (hRest : ∀ a l', m a l' → After (f a) l' post) : After (op >>= f) l post :=
  hRest _ _ h

theorem After.and {op : LiveM κ σ α} {P Q : α → Live κ σ → Prop} (hP : After op l P)
    (hQ : After op l Q) : After op l fun a l' => P a l' ∧ Q a l' :=
  ⟨hP, hQ⟩

theorem After.run_eq {op : LiveM κ σ α} {post : α → Live κ σ → Prop} (h : After op l post) :
    After op l fun a l' => op.run l = (a, l') ∧ post a l' :=
  ⟨rfl, h⟩

/-! ## Operations that can be refused -/

@[simp]
theorem after_act_pure {a : α} {post : Except Fault α → Live κ σ → Prop} :
    After (pure a : Act κ σ α).run l post ↔ post (.ok a) l := Iff.rfl

@[simp]
theorem after_act_throw_bind {e : Fault} {f : α → Act κ σ β}
    {post : Except Fault β → Live κ σ → Prop} :
    After (throw e >>= f : Act κ σ β).run l post ↔ post (.error e) l := Iff.rfl

@[simp]
theorem after_sure {op : LiveM κ σ α} {post : Except Fault α → Live κ σ → Prop} :
    After (sure op).run l post ↔ After op l fun a l' => post (.ok a) l' := Iff.rfl

@[simp]
theorem after_lift {op : LiveM κ σ α} {post : Except Fault α → Live κ σ → Prop} :
    After (liftM op : Act κ σ α).run l post ↔ After op l fun a l' => post (.ok a) l' := Iff.rfl

theorem After.act_bind {op : Act κ σ α} {f : α → Act κ σ β}
    {m : Except Fault α → Live κ σ → Prop} {post : Except Fault β → Live κ σ → Prop}
    (h : After op.run l m) (hOk : ∀ a l', m (.ok a) l' → After (f a).run l' post)
    (hError : ∀ e l', m (.error e) l' → post (.error e) l') : After (op >>= f).run l post := by
  rw [ExceptT.run_bind]
  refine h.bind fun x l' hx => ?_
  cases x with
  | ok a => exact hOk a l' hx
  | error e => exact hError e l' hx

theorem after_attempt {act : Act κ σ Unit} {post : Live κ σ → Prop} :
    After (attempt act) l (fun _ => post) ↔ After act.run l fun _ => post := Iff.rfl

/-! ## Loops -/

/-- A loop that keeps a condition on the rounds that are left and the state. -/
theorem After.forM {xs : List α} {f : α → LiveM κ σ PUnit} {k : List α → Live κ σ → Prop}
    (h : k xs l) (hStep : ∀ x rest l', k (x :: rest) l' →
      After (f x) l' fun _ => k rest) : After (xs.forM f) l fun _ => k [] := by
  induction xs generalizing l with
  | nil => exact h
  | cons x xs ih => exact (hStep x xs l h).bind fun _ l' h' => ih h'

/-- A loop with a result that keeps a condition on the rounds that are left as well. -/
theorem After.foldlM {xs : List α} {f : β → α → LiveM κ σ β} {b : β}
    {k : List α → β → Live κ σ → Prop} (h : k xs b l)
    (hStep : ∀ x rest b l', k (x :: rest) b l' → After (f b x) l' fun b' => k rest b') :
    After (xs.foldlM f b) l fun b' => k [] b' := by
  induction xs generalizing l b with
  | nil => exact h
  | cons x xs ih =>
    rw [List.foldlM_cons]
    exact (hStep x xs b l h).bind fun b' l' h' => ih h'

/-! ## Kept conditions -/

/-- An operation keeps a condition on the state. -/
def Keeps (P : Live κ σ → Prop) (op : LiveM κ σ α) : Prop :=
  ∀ l, P l → After op l fun _ => P

namespace Keeps

variable {P : Live κ σ → Prop}

theorem pure (a : α) : Keeps P (Pure.pure a) := fun _ h => h

theorem get : Keeps P MonadState.get := fun _ h => h

theorem bind {op : LiveM κ σ α} {f : α → LiveM κ σ β} (h : Keeps P op)
    (hRest : ∀ a, Keeps P (f a)) : Keeps P (op >>= f) := fun l hl =>
  (h l hl).bind fun a l' hl' => hRest a l' hl'

theorem forM {xs : List α} {f : α → LiveM κ σ PUnit} (h : ∀ x, Keeps P (f x)) :
    Keeps P (xs.forM f) := fun _ hl =>
  After.forM (k := fun _ => P) hl fun x _ l' hl' => h x l' hl'

end Keeps

end LiveMarkup.Live
