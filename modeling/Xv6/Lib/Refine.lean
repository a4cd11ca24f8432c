import Xv6.Lib.Exec

namespace Xv6.Lib.Exec

variable {S T E α β γ δ : Type} {π : S → T} {g : α → β} {m : Exec S E α} {m' : Exec T E β}

theorem bind_eq_ok {f : α → Exec S E β} {s u : S} {b : β} :
    (m >>= f) s = .ok (b, u) ↔ ∃ a t, m s = .ok (a, t) ∧ f a t = .ok (b, u) := by
  constructor
  · intro h
    cases hm : m s with
    | ok r => exact ⟨r.1, r.2, rfl, (bind_ok (f := f) hm).symm.trans h⟩
    | error e => cases (bind_error (f := f) hm).symm.trans h
  · rintro ⟨a, t, hm, hf⟩
    exact (bind_ok hm).trans hf

theorem wp_bind_ok {f : α → Exec S E β} {s t : S} {a : α} {Q : β → S → Prop} {X : E → Prop} (h : m s = .ok (a, t)) :
    wp (m >>= f) Q X s ↔ wp (f a) Q X t := by
  rw [wp, wp, bind_ok h]

/-- Whatever a computation returns meets `P`. -/
def Returns (m : Exec S E α) (P : α → Prop) : Prop := ∀ s a t, m s = .ok (a, t) → P a

theorem Returns.pure {P : α → Prop} {a : α} (h : P a) : Returns (pure a : Exec S E α) P := by
  rintro s _ _ ⟨⟩
  exact h

theorem Returns.bind {P : α → Prop} {Q : β → Prop} {f : α → Exec S E β} (h : Returns m P)
    (hf : ∀ a, P a → Returns (f a) Q) : Returns (m >>= f) Q := by
  intro s b u hm
  obtain ⟨a, t, ha, hb⟩ := bind_eq_ok.mp hm
  exact hf a (h s a t ha) t b u hb

theorem Returns.ite {P : α → Prop} {c : Prop} [Decidable c] {n : Exec S E α} (h : c → Returns m P)
    (h' : ¬ c → Returns n P) : Returns (if c then m else n) P := by
  by_cases hc : c
  · rw [if_pos hc]
    exact h hc
  · rw [if_neg hc]
    exact h' hc

theorem Returns.wp {P : α → Prop} (h : Returns m P) (s : S) : Exec.wp m (fun a _ => P a) (fun _ => True) s :=
  wp_iff.mpr ⟨h s, fun _ _ => trivial⟩

theorem Returns.any : Returns m fun _ => True := fun _ _ _ _ => trivial

theorem Returns.zoom {P : β → Prop} {get : S → T} {put : S → T → S} (h : Returns m' P) :
    Returns (Exec.zoom get put m') P := by
  intro s a s' hm
  rw [Exec.zoom] at hm
  split at hm
  next a t ht =>
    cases hm
    exact h _ a t ht
  next => cases hm

/-- Whatever a computation does, the other does on the image of the state, with the image of its result. -/
def Refines (π : S → T) (g : α → β) (m : Exec S E α) (m' : Exec T E β) : Prop :=
  ∀ s a s', m s = .ok (a, s') → m' (π s) = .ok (g a, π s')

namespace Refines

theorem ok {m' : Exec T E α} (h : Refines π id m m') {s s' : S} {a : α} (hm : m s = .ok (a, s')) :
    m' (π s) = .ok (a, π s') := h s a s' hm

theorem pure (a : α) : Refines π g (pure a : Exec S E α) (pure (g a)) := by
  rintro s _ _ ⟨⟩
  rfl

theorem fail (e : E) : Refines π g (Exec.fail e) m' := by
  rintro s a s' ⟨⟩

theorem gets (f : T → α) : Refines π id (Exec.gets (fun s => f (π s)) : Exec S E α) (Exec.gets f) := by
  rintro s _ _ ⟨⟩
  rfl

theorem zoom {get : S → T} {put : S → T → S} (h : ∀ s t, get (put s t) = t) :
    Refines get id (Exec.zoom get put m') m' := by
  intro s a s' hm
  rw [Exec.zoom] at hm
  split at hm
  next a t ht =>
    cases hm
    rw [ht, h]
    rfl
  next => cases hm

theorem bind {h : γ → δ} {f : α → Exec S E γ} {f' : β → Exec T E δ} (hm : Refines π g m m')
    (hf : ∀ a, Refines π h (f a) (f' (g a))) : Refines π h (m >>= f) (m' >>= f') := by
  intro s b u hs
  obtain ⟨a, t, ha, hb⟩ := bind_eq_ok.mp hs
  exact bind_eq_ok.mpr ⟨g a, π t, hm s a t ha, hf a t b u hb⟩

theorem wp {s : S} {Q : β → T → Prop} {X : E → Prop} (h : Refines π g m m') (hm : Exec.wp m' Q X (π s)) :
    Exec.wp m (fun a t => Q (g a) (π t)) (fun _ => True) s :=
  wp_iff.mpr ⟨fun a t ha => (wp_iff.mp hm).1 _ _ (h s a t ha), fun _ _ => trivial⟩

theorem silent {h : γ → δ} {P : α → Prop} {f : α → Exec S E γ} {m' : Exec T E δ} (hm : Keeps π m) (hP : Returns m P)
    (hf : ∀ a, P a → Refines π h (f a) m') : Refines π h (m >>= f) m' := by
  intro s b u hs
  obtain ⟨a, t, ha, hb⟩ := bind_eq_ok.mp hs
  have hk := (wp_iff.mp (hm s)).1 a t ha
  exact hk ▸ hf a (hP s a t ha) t b u hb

theorem skip {h : γ → δ} {f : α → Exec S E γ} {m' : Exec T E δ} (hm : Keeps π m) (hf : ∀ a, Refines π h (f a) m') :
    Refines π h (m >>= f) m' := silent hm .any fun a _ => hf a

theorem after {h : γ → β} {f : α → Exec S E γ} (hm : Refines π g m m')
    (hf : ∀ a, Refines π h (f a) (Pure.pure (g a))) : Refines π h (m >>= f) m' := by
  intro s b u hs
  obtain ⟨a, t, ha, hb⟩ := bind_eq_ok.mp hs
  exact (hm s a t ha).trans (hf a t b u hb)

theorem unit {m : Exec S E Unit} (h : Keeps π m) : Refines π id m (Pure.pure ()) := by
  intro s _ t hm
  rw [← (wp_iff.mp (h s)).1 _ t hm]
  rfl

theorem ite {c : Prop} [Decidable c] {n : Exec S E α} {n' : Exec T E β} (h : c → Refines π g m m')
    (h' : ¬ c → Refines π g n n') : Refines π g (if c then m else n) (if c then m' else n') := by
  by_cases hc : c
  · rw [if_pos hc, if_pos hc]
    exact h hc
  · rw [if_neg hc, if_neg hc]
    exact h' hc

end Refines

def RefinesSome {ι : Type} (π : S → T) (m : Exec S E α) (m' : ι → Exec T E α) : Prop :=
  ∀ s a s', m s = .ok (a, s') → ∃ i, m' i (π s) = .ok (a, π s')

namespace RefinesSome

variable {ι : Type} {m' : ι → Exec T E α}

theorem wp {s : S} {Q : α → T → Prop} {X : E → Prop} (h : RefinesSome π m m') (hm : ∀ i, Exec.wp (m' i) Q X (π s)) :
    Exec.wp m (fun a t => Q a (π t)) (fun _ => True) s := by
  refine wp_iff.mpr ⟨fun a t ha => ?_, fun _ _ => trivial⟩
  obtain ⟨i, hi⟩ := h s a t ha
  exact (wp_iff.mp (hm i)).1 a _ hi

theorem of (i : ι) (h : Refines π id m (m' i)) : RefinesSome π m m' := fun s a s' hm => ⟨i, h s a s' hm⟩

theorem bindOf {P : α → Prop} {m' : ι → Exec T E β} {f : α → Exec S E γ} {f' : ι → β → Exec T E γ}
    (hm : ∀ i, Refines π g m (m' i)) (hP : Returns m P) (hf : ∀ a, P a → RefinesSome π (f a) fun i => f' i (g a)) :
    RefinesSome π (m >>= f) fun i => m' i >>= f' i := by
  intro s b u hs
  obtain ⟨a, t, ha, hb⟩ := bind_eq_ok.mp hs
  obtain ⟨i, hi⟩ := hf a (hP s a t ha) t b u hb
  exact ⟨i, bind_eq_ok.mpr ⟨g a, π t, hm i s a t ha, hi⟩⟩

theorem bind {m' : ι → Exec T E β} {f : α → Exec S E γ} {f' : ι → β → Exec T E γ} (hm : ∀ i, Refines π g m (m' i))
    (hf : ∀ a, RefinesSome π (f a) fun i => f' i (g a)) : RefinesSome π (m >>= f) fun i => m' i >>= f' i :=
  bindOf hm .any fun a _ => hf a

theorem silent {P : α → Prop} {f : α → Exec S E γ} {m' : ι → Exec T E γ} (hm : Keeps π m) (hP : Returns m P)
    (hf : ∀ a, P a → RefinesSome π (f a) m') : RefinesSome π (m >>= f) m' := by
  intro s b u hs
  obtain ⟨a, t, ha, hb⟩ := bind_eq_ok.mp hs
  have hk := (wp_iff.mp (hm s)).1 a t ha
  exact hk ▸ hf a (hP s a t ha) t b u hb

theorem skip {f : α → Exec S E γ} {m' : ι → Exec T E γ} (hm : Keeps π m) (hf : ∀ a, RefinesSome π (f a) m') :
    RefinesSome π (m >>= f) m' := silent hm .any fun a _ => hf a

end RefinesSome

theorem Keeps.zoom {f : S → γ} {get : S → T} {put : S → T → S} (h : ∀ s t, f (put s t) = f s) :
    Keeps f (Exec.zoom get put m') := fun s =>
  (wp_zoom get put).mpr (wp_iff.mpr ⟨fun _ t _ => h s t, fun _ _ => trivial⟩)

end Xv6.Lib.Exec
