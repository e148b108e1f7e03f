import Mathlib.Data.List.Basic

/-!
# Outcomes of programs that may stop

`Meets x s Q X`: from state `s`, `x` returns with `Q` or stops with `X`. One rule for each way to
build a program; a loop is read off its list, one iteration after the other.
-/

namespace Resource

variable {ε σ α β ι : Type}

def Meets (x : EStateM ε σ α) (s : σ) (Q : α → σ → Prop) (X : ε → σ → Prop) : Prop :=
  match x s with
  | .ok a s' => Q a s'
  | .error e s' => X e s'

variable {x : EStateM ε σ α} {f : α → EStateM ε σ β} {s : σ}
  {Q Q' : α → σ → Prop} {R : β → σ → Prop} {X X' : ε → σ → Prop}

theorem Meets.mono (h : Meets x s Q X) (hQ : ∀ a s', Q a s' → Q' a s')
    (hX : ∀ e s', X e s' → X' e s') : Meets x s Q' X' := by
  unfold Meets at h ⊢
  split at h
  · exact hQ _ _ h
  · exact hX _ _ h

theorem Meets.and (h : Meets x s Q X) (h' : Meets x s Q' X') :
    Meets x s (fun a s' => Q a s' ∧ Q' a s') (fun e s' => X e s' ∧ X' e s') := by
  unfold Meets at h h' ⊢
  split
  · rename_i hx
    rw [hx] at h h'
    exact ⟨h, h'⟩
  · rename_i hx
    rw [hx] at h h'
    exact ⟨h, h'⟩

theorem Meets.ok (h : Meets x s Q X) {a : α} {s' : σ} (hx : x s = .ok a s') : Q a s' := by
  rwa [Meets, hx] at h

theorem Meets.error (h : Meets x s Q X) {e : ε} {s' : σ} (hx : x s = .error e s') : X e s' := by
  rwa [Meets, hx] at h

theorem meets_pure {a : α} (h : Q a s) : Meets (pure a : EStateM ε σ α) s Q X := h

theorem meets_throw {e : ε} (h : X e s) : Meets (throw e : EStateM ε σ α) s Q X := h

theorem meets_get {Q : σ → σ → Prop} (h : Q s s) : Meets (get : EStateM ε σ σ) s Q X := h

theorem meets_modify {g : σ → σ} {Q : PUnit → σ → Prop} (h : Q ⟨⟩ (g s)) :
    Meets (modify g : EStateM ε σ PUnit) s Q X := h

theorem meets_bind (h : Meets x s (fun a s' => Meets (f a) s' R X) X) :
    Meets (x >>= f) s R X := by
  unfold Meets at h ⊢
  rw [show (x >>= f) s = EStateM.bind x f s from rfl, EStateM.bind]
  split at h
  · rename_i hx
    rw [hx]
    exact h
  · rename_i hx
    rw [hx]
    exact h

/-- A loop, when `I l₁ l₂` holds after the elements of `l₁` with those of `l₂` left. -/
theorem meets_forM {l : List ι} {body : ι → EStateM ε σ PUnit} {I : List ι → List ι → σ → Prop}
    (hbody : ∀ l₁ y l₂, l = l₁ ++ y :: l₂ → ∀ s, I l₁ (y :: l₂) s →
      Meets (body y) s (fun _ s' => I (l₁ ++ [y]) l₂ s') X) (h : I [] l s) :
    Meets (l.forM body) s (fun _ s' => I l [] s') X := by
  suffices hgo : ∀ l₂ l₁, l = l₁ ++ l₂ → ∀ s, I l₁ l₂ s →
      Meets (l₂.forM body) s (fun _ s' => I l [] s') X from hgo l [] rfl s h
  intro l₂
  induction l₂ with
  | nil =>
    intro l₁ hl s hs
    obtain rfl : l = l₁ := by rw [hl, List.append_nil]
    exact hs
  | cons y l₂ ih =>
    intro l₁ hl s hs
    refine meets_bind ((hbody l₁ y l₂ hl s hs).mono (fun _ s' hs' => ?_) fun _ _ hX => hX)
    exact ih (l₁ ++ [y]) (by rw [hl, List.append_assoc]; rfl) s' hs'

/-- Nested loops as one. -/
theorem forM_flatMap {κ : Type} {l : List ι} {g : ι → List κ} {body : κ → EStateM ε σ PUnit} :
    (l.flatMap g).forM body = l.forM fun y => (g y).forM body := by
  induction l with
  | nil => rfl
  | cons y l ih =>
    rw [List.flatMap_cons, List.forM_eq_forM, List.forM_append, ← List.forM_eq_forM, ih]
    rfl

end Resource
