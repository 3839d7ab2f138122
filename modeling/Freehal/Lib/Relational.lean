/-!
# Two runs of stateful programs

Two programs over one kind of state are related by `V` when their results are, whatever the
states are that they start from. A program related to itself by equality does not let its
result depend on the state.
-/

namespace Freehal.Lib

variable {σ α β γ δ : Type}

def Related (V : α → β → Prop) (x : StateM σ α) (y : StateM σ β) : Prop :=
  ∀ s s', V (x.run s).1 (y.run s').1

theorem Related.pure {V : α → β → Prop} {a : α} {b : β} (h : V a b) :
    Related (σ := σ) V (pure a) (pure b) := fun _ _ => h

theorem Related.bind {V : α → β → Prop} {W : γ → δ → Prop} {x : StateM σ α} {y : StateM σ β}
    {f : α → StateM σ γ} {g : β → StateM σ δ} (h : Related V x y)
    (hf : ∀ a b, V a b → Related W (f a) (g b)) : Related W (x >>= f) (y >>= g) :=
  fun s s' => hf _ _ (h s s') _ _

theorem Related.mono {V W : α → β → Prop} {x : StateM σ α} {y : StateM σ β} (h : Related V x y)
    (hVW : ∀ a b, V a b → W a b) : Related W x y :=
  fun s s' => hVW _ _ (h s s')

theorem Related.map {V : α → β → Prop} {W : γ → δ → Prop} {x : StateM σ α} {y : StateM σ β}
    (f : α → γ) (g : β → δ) (h : Related V x y) (hf : ∀ a b, V a b → W (f a) (g b)) :
    Related W (f <$> x) (g <$> y) :=
  fun s s' => hf _ _ (h s s')

theorem Related.modify (f g : σ → σ) : Related Eq (modify f : StateM σ PUnit) (modify g) :=
  fun _ _ => rfl

/-! ## One run -/

/-- Every result of the program satisfies `P`. -/
def Returns (P : α → Prop) (x : StateM σ α) : Prop := ∀ s, P (x.run s).1

theorem Returns.pure {P : α → Prop} {a : α} (h : P a) : Returns (σ := σ) P (pure a) := fun _ => h

theorem Returns.bind {P : α → Prop} {Q : β → Prop} {x : StateM σ α} {f : α → StateM σ β}
    (h : Returns P x) (hf : ∀ a, P a → Returns Q (f a)) : Returns Q (x >>= f) :=
  fun s => hf _ (h s) _

/-- What each of two programs returns on its own may be used where they are related. -/
theorem Related.with {V : α → β → Prop} {P : α → Prop} {Q : β → Prop} {x : StateM σ α}
    {y : StateM σ β} (h : Related V x y) (hx : Returns P x) (hy : Returns Q y) :
    Related (fun a b => V a b ∧ P a ∧ Q b) x y :=
  fun s s' => ⟨h s s', hx s, hy s'⟩

/-! ## Decisions -/

/-- What the first decision lets through, the second one does. -/
abbrev Relaxes (x y : StateM σ Bool) : Prop := Related (fun a b => a = true → b = true) x y

theorem Relaxes.and {x x' y y' : StateM σ Bool} (h : Relaxes x x') (h' : Relaxes y y') :
    Relaxes (x <&&> y) (x' <&&> y') := by
  refine Related.bind h fun a b hab => ?_
  cases a with
  | false => exact fun _ _ ha => nomatch ha
  | true => rw [hab rfl]; exact h'

theorem Relaxes.or {x x' y y' : StateM σ Bool} (h : Relaxes x x') (h' : Relaxes y y') :
    Relaxes (x <||> y) (x' <||> y') := by
  refine Related.bind h fun a b hab => ?_
  cases a with
  | true => rw [hab rfl]; exact fun _ _ _ => rfl
  | false =>
      cases b with
      | true => exact fun _ _ _ => rfl
      | false => exact h'

/-- A decision that lets through from one state what it does from any other. -/
theorem Relaxes.eq {x : StateM σ Bool} (h : Relaxes x x) : Related Eq x x :=
  fun s s' => Bool.eq_iff_iff.mpr ⟨h s s', h s' s⟩

/-! ## What a program adds -/

section

variable {P : β → Prop}

/-- The program adds to the list that is its state, and adds only what satisfies `P`. -/
def Adds (P : β → Prop) (x : StateM (List β) α) : Prop :=
  ∀ s, ∃ new, (x.run s).2 = s ++ new ∧ ∀ b ∈ new, P b

theorem Adds.pure (a : α) : Adds P (pure a : StateM (List β) α) :=
  fun s => ⟨[], (List.append_nil s).symm, fun _ h => nomatch h⟩

theorem Adds.bind {x : StateM (List β) α} {f : α → StateM (List β) γ} (h : Adds P x)
    (hf : ∀ a, Adds P (f a)) : Adds P (x >>= f) := by
  intro s
  obtain ⟨new, hnew, hP⟩ := h s
  obtain ⟨more, hmore, hQ⟩ := hf (x.run s).1 (x.run s).2
  refine ⟨new ++ more, hmore.trans (by rw [hnew, List.append_assoc]), fun b hb => ?_⟩
  exact (List.mem_append.mp hb).elim (hP b) (hQ b)

theorem Adds.map {x : StateM (List β) α} (f : α → γ) (h : Adds P x) : Adds P (f <$> x) :=
  h

/-- What holds of the list at first holds of it at last. -/
theorem Adds.forall {x : StateM (List β) α} (h : Adds P x) {s : List β} (hs : ∀ b ∈ s, P b) :
    ∀ b ∈ (x.run s).2, P b := by
  obtain ⟨new, hnew, hP⟩ := h s
  rw [hnew]
  exact fun b hb => (List.mem_append.mp hb).elim (hs b) (hP b)

theorem Adds.and {x y : StateM (List β) Bool} (hx : Adds P x) (hy : Adds P y) :
    Adds P (x <&&> y) := by
  refine hx.bind fun a => ?_
  cases a with
  | false => exact Adds.pure _
  | true => exact hy

theorem Adds.or {x y : StateM (List β) Bool} (hx : Adds P x) (hy : Adds P y) :
    Adds P (x <||> y) := by
  refine hx.bind fun a => ?_
  cases a with
  | false => exact hy
  | true => exact Adds.pure _

end

end Freehal.Lib
