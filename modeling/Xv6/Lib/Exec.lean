import Mathlib

namespace Xv6.Lib

def Exec (S E α : Type) := S → Except E (α × S)

namespace Exec

variable {S T E α β : Type}

protected def pure (a : α) : Exec S E α := fun s => .ok (a, s)

protected def bind (m : Exec S E α) (f : α → Exec S E β) : Exec S E β := fun s =>
  match m s with
  | .ok (a, t) => f a t
  | .error e => .error e

instance : Monad (Exec S E) where
  pure := Exec.pure
  bind := Exec.bind

def gets (f : S → α) : Exec S E α := fun s => .ok (f s, s)

def update (f : S → S) : Exec S E Unit := fun s => .ok ((), f s)

def fail (e : E) : Exec S E α := fun _ => .error e

def zoom (get : T → S) (put : T → S → T) (m : Exec S E α) : Exec T E α := fun t =>
  match m (get t) with
  | .ok (a, s) => .ok (a, put t s)
  | .error e => .error e

/-- From state `s`, the computation returns with `Q` or stops with `X`. -/
def wp (m : Exec S E α) (Q : α → S → Prop) (X : E → Prop) (s : S) : Prop :=
  match m s with
  | .ok (a, t) => Q a t
  | .error e => X e

variable {m : Exec S E α} {Q : α → S → Prop} {X : E → Prop} {s : S}

theorem wp_iff : wp m Q X s ↔ (∀ a t, m s = .ok (a, t) → Q a t) ∧ ∀ e, m s = .error e → X e := by
  unfold wp
  cases m s with
  | ok r =>
      obtain ⟨a, t⟩ := r
      simp only [Except.ok.injEq, Prod.mk.injEq, reduceCtorEq, false_imp_iff, implies_true, and_true]
      exact ⟨fun h _ _ hr => hr.1 ▸ hr.2 ▸ h, fun h => h a t ⟨rfl, rfl⟩⟩
  | error e => simp

theorem bind_ok {f : α → Exec S E β} {a : α} {t : S} (h : m s = .ok (a, t)) : (m >>= f) s = f a t := by
  show (match m s with | .ok (a, t) => f a t | .error e => .error e) = _
  rw [h]

theorem bind_error {f : α → Exec S E β} {e : E} (h : m s = .error e) : (m >>= f) s = .error e := by
  show (match m s with | .ok (a, t) => f a t | .error e => .error e) = _
  rw [h]

theorem ok_of_any {p : α × S → Bool} (h : (m s).toOption.any p) : ∃ a t, m s = .ok (a, t) ∧ p (a, t) := by
  cases hm : m s with
  | ok r =>
      rw [hm] at h
      exact ⟨r.1, r.2, rfl, h⟩
  | error e =>
      rw [hm] at h
      cases h

theorem wp_congr {n : Exec S E α} (h : m s = n s) : wp m Q X s ↔ wp n Q X s := by
  rw [wp, wp, h]

@[simp] theorem wp_pure (a : α) : wp (pure a : Exec S E α) Q X s ↔ Q a s := Iff.rfl

@[simp] theorem wp_bind {f : α → Exec S E β} {R : β → S → Prop} :
    wp (m >>= f) R X s ↔ wp m (fun a => wp (f a) R X) X s := by
  show (match (match m s with | .ok (a, t) => f a t | .error e => .error e) with
    | .ok (b, t) => R b t
    | .error e => X e) ↔ _
  unfold wp
  cases m s <;> rfl

@[simp] theorem wp_gets (f : S → α) : wp (gets f : Exec S E α) Q X s ↔ Q (f s) s := Iff.rfl

@[simp] theorem wp_update (f : S → S) {Q : Unit → S → Prop} : wp (update f : Exec S E Unit) Q X s ↔ Q () (f s) :=
  Iff.rfl

@[simp] theorem wp_fail (e : E) : wp (fail e : Exec S E α) Q X s ↔ X e := Iff.rfl

@[simp] theorem wp_zoom (get : T → S) (put : T → S → T) {Q : α → T → Prop} {t : T} :
    wp (zoom get put m) Q X t ↔ wp m (fun a s => Q a (put t s)) X (get t) := by
  unfold wp zoom
  cases m (get t) <;> rfl

theorem wp_ite {c : Prop} [Decidable c] {m' : Exec S E α} :
    wp (if c then m else m') Q X s ↔ (c → wp m Q X s) ∧ (¬ c → wp m' Q X s) := by
  by_cases h : c <;> simp [h]

theorem wp.mono {Q' : α → S → Prop} {X' : E → Prop} (h : wp m Q X s) (hQ : ∀ a t, Q a t → Q' a t)
    (hX : ∀ e, X e → X' e) : wp m Q' X' s := by
  rw [wp_iff] at h ⊢
  exact ⟨fun a t ht => hQ a t (h.1 a t ht), fun e he => hX e (h.2 e he)⟩

theorem wp.imp {Q' : α → S → Prop} (h : wp m Q X s) (hQ : ∀ a t, Q a t → Q' a t) : wp m Q' X s :=
  h.mono hQ fun _ => id

theorem wp.bind {f : α → Exec S E β} {R : β → S → Prop} (h : wp m Q X s) (h' : ∀ a t, Q a t → wp (f a) R X t) :
    wp (m >>= f) R X s :=
  wp_bind.mpr (h.imp h')

theorem wp.andThen {f : α → Exec S E β} {R : β → S → Prop} (h : wp m Q (fun _ => False) s)
    (h' : ∀ a t, Q a t → wp (f a) R X t) : wp (m >>= f) R X s :=
  wp_bind.mpr (h.mono h' fun _ => False.elim)

theorem wp.and {Q' : α → S → Prop} (h : wp m Q X s) (h' : wp m Q' X s) :
    wp m (fun a t => Q a t ∧ Q' a t) X s := by
  rw [wp_iff] at h h' ⊢
  exact ⟨fun a t ht => ⟨h.1 a t ht, h'.1 a t ht⟩, h.2⟩

theorem wp.conj {Q' : α → S → Prop} {X' : E → Prop} (h : wp m Q X s) (h' : wp m Q' X' s) :
    wp m (fun a t => Q a t ∧ Q' a t) (fun e => X e ∧ X' e) s := by
  rw [wp_iff] at h h' ⊢
  exact ⟨fun a t ht => ⟨h.1 a t ht, h'.1 a t ht⟩, fun e he => ⟨h.2 e he, h'.2 e he⟩⟩

theorem wp.exists_ok (h : wp m Q (fun _ => False) s) : ∃ a t, m s = .ok (a, t) ∧ Q a t := by
  rw [wp_iff] at h
  cases hm : m s with
  | ok r => exact ⟨r.1, r.2, rfl, h.1 r.1 r.2 hm⟩
  | error e => exact (h.2 e hm).elim

theorem wp.and_safe {Q' : α → S → Prop} (h : wp m Q X s) (h' : wp m Q' (fun _ => False) s) :
    wp m (fun a t => Q a t ∧ Q' a t) (fun _ => False) s :=
  (h.conj h').mono (fun _ _ => id) fun _ => And.right

def Keeps (f : S → β) (m : Exec S E α) : Prop := ∀ s, wp m (fun _ t => f t = f s) (fun _ => True) s

section Keeps

variable {γ : Type} {f : S → γ}

theorem Keeps.pure (a : α) : Keeps f (pure a : Exec S E α) := fun _ => rfl

theorem Keeps.gets (g : S → α) : Keeps f (gets g : Exec S E α) := fun _ => rfl

theorem Keeps.fail (e : E) : Keeps f (fail e : Exec S E α) := fun _ => trivial

theorem Keeps.update {g : S → S} (h : ∀ s, f (g s) = f s) : Keeps f (update g : Exec S E Unit) := fun s => h s

theorem Keeps.bind {g : α → Exec S E β} (h : Keeps f m) (h' : ∀ a, Keeps f (g a)) : Keeps f (m >>= g) := fun s =>
  wp_bind.mpr ((h s).imp fun a t ht => (h' a t).imp fun _ _ hu => hu.trans ht)

theorem Keeps.ite {c : Prop} [Decidable c] {m' : Exec S E α} (h : c → Keeps f m) (h' : ¬ c → Keeps f m') :
    Keeps f (if c then m else m') := fun s => wp_ite.mpr ⟨fun hc => h hc s, fun hc => h' hc s⟩

theorem wp.keeps (h : wp m Q X s) (hk : Keeps f m) : wp m (fun a t => Q a t ∧ f t = f s) X s := by
  have hk := hk s
  rw [wp_iff] at h hk ⊢
  exact ⟨fun a t ht => ⟨h.1 a t ht, hk.1 a t ht⟩, h.2⟩

end Keeps

end Exec

end Xv6.Lib
