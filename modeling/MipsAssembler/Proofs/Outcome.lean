import Mathlib.Data.List.Forall2

/-!
# Computations that may fail

What is known of a computation that succeeded. A sequence of two steps succeeded if both did
(`bind_eq_ok`), a list of independent steps if each did (`mapM_eq_ok`), and what every step of a
loop keeps holds after the loop (`foldlM_run`). A call that changes a state in place leaves one behind
also where it fails (`endState`).
-/

namespace MipsAssembler.Outcome

variable {ε α β γ σ : Type}

theorem bind_eq_ok {x : Except ε α} {f : α → Except ε β} {b : β} :
    (x >>= f) = .ok b ↔ ∃ a, x = .ok a ∧ f a = .ok b := by
  cases x <;> simp [bind, Except.bind]

theorem bind_eq_error {x : Except ε α} {f : α → Except ε β} {e : ε} :
    (x >>= f) = .error e ↔ x = .error e ∨ ∃ a, x = .ok a ∧ f a = .error e := by
  cases x <;> simp [bind, Except.bind]

theorem map_eq_ok {x : Except ε α} {f : α → β} {b : β} :
    x.map f = .ok b ↔ ∃ a, x = .ok a ∧ f a = b := by
  cases x <;> simp [Except.map]

theorem map_eq_error {x : Except ε α} {f : α → β} {e : ε} :
    x.map f = .error e ↔ x = .error e := by
  cases x <;> simp [Except.map]

theorem pure_eq_ok {a b : α} : (pure a : Except ε α) = .ok b ↔ a = b := by
  simp [pure, Except.pure]

theorem eq_ok_of_toOption {x : Except ε α} {a : α} (h : x.toOption = some a) : x = .ok a := by
  cases x with
  | error e => cases h
  | ok b => exact congrArg Except.ok (Option.some.inj h)

/-- The state in which a call ends, whether it succeeds or not. -/
def endState : EStateM.Result ε σ α → σ
  | .ok _ s | .error _ s => s

/-- The results of independent steps, in order. -/
theorem mapM_eq_ok {f : α → Except ε β} {l : List α} {l' : List β} :
    l.mapM f = .ok l' ↔ List.Forall₂ (fun a b => f a = .ok b) l l' := by
  induction l generalizing l' with
  | nil =>
    rw [List.mapM_nil, pure_eq_ok, List.forall₂_nil_left_iff]
    exact eq_comm
  | cons a l ih =>
    rw [List.mapM_cons, bind_eq_ok]
    constructor
    · rintro ⟨b, hb, h⟩
      obtain ⟨bs, hbs, h⟩ := bind_eq_ok.1 h
      obtain rfl := pure_eq_ok.1 h
      exact .cons hb (ih.1 hbs)
    · rintro (_ | ⟨hb, hbs⟩)
      exact ⟨_, hb, bind_eq_ok.2 ⟨_, ih.2 hbs, pure_eq_ok.2 rfl⟩⟩

/-- Independent steps fail with the error of one of them. -/
theorem exists_of_mapM_eq_error {f : α → Except ε β} {l : List α} {e : ε}
    (h : l.mapM f = .error e) : ∃ a ∈ l, f a = .error e := by
  induction l with
  | nil => simp [pure, Except.pure] at h
  | cons a l ih =>
    rw [List.mapM_cons] at h
    rcases bind_eq_error.1 h with ha | ⟨b, -, h⟩
    · exact ⟨a, by simp, ha⟩
    · rcases bind_eq_error.1 h with hl | ⟨bs, -, h⟩
      · obtain ⟨a', ha', he⟩ := ih hl
        exact ⟨a', by simp [ha'], he⟩
      · simp [pure, Except.pure] at h

/-- Checks that all succeed. -/
theorem forM_eq_ok {f : α → Except ε Unit} {l : List α} (h : l.forM f = .ok ()) :
    ∀ a ∈ l, f a = .ok () := by
  rw [List.forM_eq_forM] at h
  induction l with
  | nil => simp
  | cons a l ih =>
    rw [List.forM_cons] at h
    obtain ⟨_, ha, hl⟩ := bind_eq_ok.1 h
    exact List.forall_mem_cons.2 ⟨ha, ih hl⟩

theorem exists_of_mem_left {R : α → β → Prop} {l : List α} {l' : List β}
    (h : List.Forall₂ R l l') {a : α} (ha : a ∈ l) : ∃ b ∈ l', R a b := by
  induction h with
  | nil => simp at ha
  | cons hab _ ih =>
    rcases List.mem_cons.1 ha with rfl | ha
    · exact ⟨_, by simp, hab⟩
    · obtain ⟨b, hb, hab⟩ := ih ha
      exact ⟨b, by simp [hb], hab⟩

theorem exists_of_mem_right {R : α → β → Prop} {l : List α} {l' : List β}
    (h : List.Forall₂ R l l') {b : β} (hb : b ∈ l') : ∃ a ∈ l, R a b :=
  exists_of_mem_left h.flip hb

/-- Elements with the same number are related. -/
theorem forall₂_getElem? {R : α → β → Prop} {l : List α} {l' : List β} (h : List.Forall₂ R l l')
    {i : Nat} {a : α} {b : β} (ha : l[i]? = some a) (hb : l'[i]? = some b) : R a b := by
  obtain ⟨hi, rfl⟩ := List.getElem?_eq_some_iff.1 ha
  obtain ⟨hi', rfl⟩ := List.getElem?_eq_some_iff.1 hb
  exact h.get hi hi'

/-- Related lists, with where the related elements come from. -/
theorem forall₂_mem {R : α → β → Prop} {l : List α} {l' : List β} (h : List.Forall₂ R l l') :
    List.Forall₂ (fun a b => a ∈ l ∧ b ∈ l' ∧ R a b) l l' := by
  obtain ⟨hlength, hzip⟩ := List.forall₂_iff_zip.1 h
  refine List.forall₂_iff_zip.2 ⟨hlength, fun hab => ?_⟩
  obtain ⟨ha, hb⟩ := List.of_mem_zip hab
  exact ⟨ha, hb, hzip hab⟩

theorem forall₂_trans {R : α → β → Prop} {S : β → γ → Prop} {T : α → γ → Prop}
    (hT : ∀ a b c, R a b → S b c → T a c) {l : List α} {l' : List β} {l'' : List γ}
    (h : List.Forall₂ R l l') (h' : List.Forall₂ S l' l'') : List.Forall₂ T l l'' := by
  induction h generalizing l'' with
  | nil =>
    obtain rfl := List.forall₂_nil_left_iff.1 h'
    exact .nil
  | cons hab _ ih =>
    obtain ⟨c, cs, hbc, hcs, rfl⟩ := List.forall₂_cons_left_iff.1 h'
    exact .cons (hT _ _ _ hab hbc) (ih hcs)

theorem map_eq_map_of_forall₂ {R : α → β → Prop} {f : α → γ} {g : β → γ}
    (hR : ∀ a b, R a b → f a = g b) {l : List α} {l' : List β} (h : List.Forall₂ R l l') :
    l.map f = l'.map g := by
  rw [← List.forall₂_eq_eq_eq, List.forall₂_map_left_iff, List.forall₂_map_right_iff]
  exact h.imp hR

theorem pairwise_of_forall₂ {R : α → β → Prop} {P : α → α → Prop} {Q : β → β → Prop}
    (hR : ∀ a a' b b', R a b → R a' b' → P a a' → Q b b') {l : List α} {l' : List β}
    (h : List.Forall₂ R l l') (hl : l.Pairwise P) : l'.Pairwise Q := by
  induction h with
  | nil => exact .nil
  | cons hab htail ih =>
    obtain ⟨hhead, hl⟩ := List.pairwise_cons.1 hl
    refine List.pairwise_cons.2 ⟨fun b' hb' => ?_, ih hl⟩
    obtain ⟨a', ha', hab'⟩ := exists_of_mem_right htail hb'
    exact hR _ _ _ _ hab hab' (hhead a' ha')

/-- A list that is related to lists one after the other is made of lists that are related to each. -/
theorem exists_of_forall₂_flatMap {R : β → γ → Prop} {f : α → List β} {l : List α} {l' : List γ}
    (h : List.Forall₂ R (l.flatMap f) l') :
    ∃ parts, List.Forall₂ (fun a part => List.Forall₂ R (f a) part) l parts ∧
      l' = parts.flatten := by
  induction l generalizing l' with
  | nil => exact ⟨[], .nil, List.forall₂_nil_left_iff.1 h⟩
  | cons a l ih =>
    rw [List.flatMap_cons] at h
    have hfirst := (List.forall₂_take_append _ _ _ h.flip).flip
    obtain ⟨parts, hparts, hrest⟩ := ih (List.forall₂_drop_append _ _ _ h.flip).flip
    refine ⟨l'.take (f a).length :: parts, .cons hfirst hparts, ?_⟩
    rw [List.flatten_cons, ← hrest, List.take_append_drop]

/-- What holds after a loop: `Inv done s` speaks of the part of the list that is done and of the
state that it led to. -/
theorem foldlM_run {f : σ → α → Except ε σ} (Inv : List α → σ → Prop) {l done : List α} {s s' : σ}
    (step : ∀ done s a s', a ∈ l → Inv done s → f s a = .ok s' → Inv (done ++ [a]) s')
    (h : l.foldlM f s = .ok s') (hs : Inv done s) : Inv (done ++ l) s' := by
  induction l generalizing done s with
  | nil =>
    obtain rfl := pure_eq_ok.1 h
    simpa using hs
  | cons a l ih =>
    rw [List.foldlM_cons] at h
    obtain ⟨t, ht, h⟩ := bind_eq_ok.1 h
    have hstep := step done s a t (by simp) hs ht
    simpa using ih (fun d u b u' hb => step d u b u' (by simp [hb])) h hstep

/-- What every step of a loop keeps. -/
theorem foldlM_keeps {f : σ → α → Except ε σ} (Inv : σ → Prop) {l : List α} {s s' : σ}
    (step : ∀ s a s', a ∈ l → Inv s → f s a = .ok s' → Inv s') (h : l.foldlM f s = .ok s')
    (hs : Inv s) : Inv s' :=
  @foldlM_run _ _ _ _ (fun _ => Inv) l [] s s' (fun _ => step) h hs

/-- A loop that fails does so at one of its steps, and those before it succeed. -/
theorem exists_of_foldlM_eq_error {f : σ → α → Except ε σ} {l : List α} {s : σ} {e : ε}
    (h : l.foldlM f s = .error e) :
    ∃ done a rest t, l = done ++ a :: rest ∧ done.foldlM f s = .ok t ∧ f t a = .error e := by
  induction l generalizing s with
  | nil => cases h
  | cons a l ih =>
    rw [List.foldlM_cons] at h
    rcases bind_eq_error.1 h with ha | ⟨t, ht, h⟩
    · exact ⟨[], a, l, s, rfl, rfl, ha⟩
    · obtain ⟨done, b, rest, u, rfl, hdone, hfail⟩ := ih h
      exact ⟨a :: done, b, rest, u, rfl, bind_eq_ok.2 ⟨t, ht, hdone⟩, hfail⟩

/-- A loop succeeds if every step does. -/
theorem exists_foldlM_eq_ok {f : σ → α → Except ε σ} {l : List α}
    (step : ∀ s, ∀ a ∈ l, ∃ s', f s a = .ok s') (s : σ) : ∃ s', l.foldlM f s = .ok s' := by
  induction l generalizing s with
  | nil => exact ⟨s, rfl⟩
  | cons a l ih =>
    obtain ⟨t, ht⟩ := step s a (by simp)
    obtain ⟨s', hs'⟩ := ih (fun s b hb => step s b (by simp [hb])) t
    exact ⟨s', by rw [List.foldlM_cons]; exact bind_eq_ok.2 ⟨t, ht, hs'⟩⟩

/-- A loop whose steps all succeed does what the steps do. -/
theorem foldlM_eq_foldl {f : σ → α → Except ε σ} {g : σ → α → σ} {l : List α}
    (step : ∀ s, ∀ a ∈ l, f s a = .ok (g s a)) (s : σ) : l.foldlM f s = .ok (l.foldl g s) := by
  induction l generalizing s with
  | nil => rfl
  | cons a l ih =>
    rw [List.foldlM_cons, step s a (by simp)]
    exact ih (fun s b hb => step s b (by simp [hb])) (g s a)

end MipsAssembler.Outcome
