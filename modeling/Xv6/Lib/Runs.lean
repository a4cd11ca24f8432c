import Mathlib

namespace Xv6.Lib.Runs

variable {S A : Type} {step : S → A → Option S} {ok : S → A → Prop}

def run (step : S → A → Option S) : S → List A → Option S
  | s, [] => some s
  | s, a :: as => (step s a).bind fun t => run step t as

def Along (step : S → A → Option S) (ok : S → A → Prop) : S → List A → Prop
  | _, [] => True
  | s, a :: as => ok s a ∧ ∀ t, step s a = some t → Along step ok t as

theorem run_cons {s u : S} {a : A} {as : List A} :
    run step s (a :: as) = some u ↔ ∃ t, step s a = some t ∧ run step t as = some u := by
  simp [run, Option.bind_eq_some_iff]

theorem run_append {s u : S} {as bs : List A} :
    run step s (as ++ bs) = some u ↔ ∃ t, run step s as = some t ∧ run step t bs = some u := by
  induction as generalizing s with
  | nil => simp [run]
  | cons a as ih =>
      simp only [List.cons_append, run_cons, ih]
      constructor
      · rintro ⟨t, ht, v, hv, hu⟩
        exact ⟨v, ⟨t, ht, hv⟩, hu⟩
      · rintro ⟨v, ⟨t, ht, hv⟩, hu⟩
        exact ⟨t, ht, v, hv, hu⟩

theorem run_invariant (Inv : S → Prop)
    (hstep : ∀ s a t, Inv s → ok s a → step s a = some t → Inv t)
    {s t : S} {as : List A} (hs : Inv s) (hok : Along step ok s as)
    (hrun : run step s as = some t) : Inv t := by
  induction as generalizing s with
  | nil =>
      simp only [run, Option.some.injEq] at hrun
      exact hrun ▸ hs
  | cons a as ih =>
      obtain ⟨u, hu, hr⟩ := run_cons.mp hrun
      exact ih (hstep s a u hs hok.1 hu) (hok.2 u hu) hr

theorem Along.mono {ok' : S → A → Prop} (h : ∀ s a, ok s a → ok' s a) {s : S} {as : List A}
    (hs : Along step ok s as) : Along step ok' s as := by
  induction as generalizing s with
  | nil => trivial
  | cons a as ih => exact ⟨h s a hs.1, fun t ht => ih (hs.2 t ht)⟩

theorem along_true (s : S) (as : List A) : Along step (fun _ _ => True) s as := by
  induction as generalizing s with
  | nil => trivial
  | cons a as ih => exact ⟨trivial, fun t _ => ih t⟩

theorem run_chain {B : Type} {R : B → B → Prop} (abs : S → B) (Inv : S → Prop)
    (hstep : ∀ s a t, Inv s → step s a = some t → Inv t ∧ Relation.ReflTransGen R (abs s) (abs t)) {s t : S}
    {as : List A} (hs : Inv s) (hrun : run step s as = some t) : Relation.ReflTransGen R (abs s) (abs t) := by
  refine (run_invariant (fun u => Inv u ∧ Relation.ReflTransGen R (abs s) (abs u)) (fun u a v h _ hst => ?_)
    ⟨hs, .refl⟩ (along_true s as) hrun).2
  obtain ⟨hv, huv⟩ := hstep u a v h.1 hst
  exact ⟨hv, h.2.trans huv⟩

theorem run_simulates {T B L : Type} {step' : T → B → Option T} (abs : S → T) (vis : A → Option L)
    (vis' : B → Option L)
    (Inv : S → Prop) (hstep : ∀ s a t, Inv s → ok s a → step s a = some t → Inv t)
    (hsim : ∀ s a t, Inv s → ok s a → step s a = some t →
      ∃ bs, run step' (abs s) bs = some (abs t) ∧ bs.filterMap vis' = (vis a).toList)
    {s t : S} {as : List A} (hs : Inv s) (hok : Along step ok s as) (hrun : run step s as = some t) :
    ∃ bs, run step' (abs s) bs = some (abs t) ∧ bs.filterMap vis' = as.filterMap vis := by
  induction as generalizing s with
  | nil =>
      simp only [run, Option.some.injEq] at hrun
      exact ⟨[], congrArg (fun u => some (abs u)) hrun, rfl⟩
  | cons a as ih =>
      obtain ⟨u, hu, hr⟩ := run_cons.mp hrun
      obtain ⟨bs, hbs, hv⟩ := hsim s a u hs hok.1 hu
      obtain ⟨cs, hcs, hv'⟩ := ih (hstep s a u hs hok.1 hu) (hok.2 u hu) hr
      refine ⟨bs ++ cs, run_append.mpr ⟨abs u, hbs, hcs⟩, ?_⟩
      rw [List.filterMap_append, hv, hv']
      cases ha : vis a <;> simp [ha]

def alongB (step : S → A → Option S) (ok : S → A → Bool) : S → List A → Bool
  | _, [] => true
  | s, a :: as => ok s a && (step s a).all fun t => alongB step ok t as

theorem along_of_alongB (okB : S → A → Bool) (h : ∀ s a, okB s a = true → ok s a) {s : S} {as : List A}
    (hs : alongB step okB s as = true) : Along step ok s as := by
  induction as generalizing s with
  | nil => trivial
  | cons a as ih =>
      simp only [alongB, Bool.and_eq_true] at hs
      refine ⟨h s a hs.1, fun t ht => ih ?_⟩
      simpa [ht] using hs.2

end Xv6.Lib.Runs
