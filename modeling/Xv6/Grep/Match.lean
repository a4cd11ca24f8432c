import Mathlib

namespace Xv6.Grep

/-- A `char*`: the bytes that it points at, up to the end of the string. Behind the last of them there is a NUL. -/
abbrev Str := List UInt8

def deref (p : Str) : UInt8 := p.headD 0

theorem deref_nil : deref [] = 0 := rfl

theorem deref_cons (a : UInt8) (p : Str) : deref (a :: p) = a := rfl

theorem length_tail_lt {p : Str} (h : deref p ≠ 0) : p.tail.length < p.length := by
  cases p with
  | nil => exact absurd rfl h
  | cons a p => exact Nat.lt_succ_self _

mutual

def matchhere (re text : Str) : Bool :=
  if deref re = 0 then true
  else if deref re.tail = 42 then matchstar (deref re) re.tail.tail text
  else if deref re = 36 ∧ deref re.tail = 0 then deref text = 0
  else if deref text ≠ 0 ∧ (deref re = 46 ∨ deref re = deref text) then matchhere re.tail text.tail
  else false
termination_by (2 * re.length, text.length)
decreasing_by
  all_goals
    have h := length_tail_lt ‹¬ deref re = 0›
    apply Prod.Lex.left
    simp only [List.length_tail] at h ⊢
    omega

def matchstar (c : UInt8) (re text : Str) : Bool :=
  if matchhere re text then true
  else if deref text ≠ 0 ∧ (deref text = c ∨ c = 46) then matchstar c re text.tail
  else false
termination_by (2 * re.length + 1, text.length)
decreasing_by
  · exact Prod.Lex.left _ _ (Nat.lt_succ_self _)
  · rename_i h
    exact Prod.Lex.right _ (length_tail_lt h.1)

end

/-- The loop of `match`. -/
def search (re text : Str) : Bool :=
  if matchhere re text then true
  else if deref text ≠ 0 then search re text.tail
  else false
termination_by text.length
decreasing_by
  rename_i h
  exact length_tail_lt h

def match' (re text : Str) : Bool :=
  if deref re = 94 then matchhere re.tail text else search re text

/-- What a pattern is made of: `c*`, any one byte, a byte, and the end of the text. -/
inductive Item
  | star (c : UInt8)
  | any
  | lit (c : UInt8)
  | eot

def items : Str → List Item
  | [] => []
  | [c] => if c = 36 then [.eot] else [if c = 46 then .any else .lit c]
  | c :: d :: re => if d = 42 then .star c :: items re else (if c = 46 then .any else .lit c) :: items (d :: re)

inductive Matches : List Item → (w rest : Str) → Prop
  | nil (rest : Str) : Matches [] [] rest
  | star {is : List Item} {c : UInt8} {w v rest : Str} (hw : ∀ b ∈ w, c = 46 ∨ b = c) (h : Matches is v rest) :
      Matches (.star c :: is) (w ++ v) rest
  | any {is : List Item} {w rest : Str} (b : UInt8) (h : Matches is w rest) : Matches (.any :: is) (b :: w) rest
  | lit {is : List Item} {w rest : Str} (c : UInt8) (h : Matches is w rest) : Matches (.lit c :: is) (c :: w) rest
  | eot : Matches [.eot] [] []

def Begins (is : List Item) (text : Str) : Prop := ∃ w rest, text = w ++ rest ∧ Matches is w rest

theorem begins_nil (text : Str) : Begins [] text := ⟨[], text, rfl, .nil text⟩

theorem begins_eot {text : Str} : Begins [.eot] text ↔ text = [] := by
  constructor
  · rintro ⟨w, rest, rfl, h⟩
    cases h
    rfl
  · rintro rfl
    exact ⟨[], [], rfl, .eot⟩

theorem not_begins_any (is : List Item) : ¬ Begins (.any :: is) [] := by
  rintro ⟨w, rest, hw, h⟩
  cases h
  cases hw

theorem begins_any {is : List Item} {b : UInt8} {text : Str} :
    Begins (.any :: is) (b :: text) ↔ Begins is text := by
  constructor
  · rintro ⟨w, rest, hw, h⟩
    cases h with
    | any b' h =>
        cases hw
        exact ⟨_, rest, rfl, h⟩
  · rintro ⟨w, rest, rfl, h⟩
    exact ⟨b :: w, rest, rfl, .any b h⟩

theorem not_begins_lit (is : List Item) (c : UInt8) : ¬ Begins (.lit c :: is) [] := by
  rintro ⟨w, rest, hw, h⟩
  cases h
  cases hw

theorem begins_lit {is : List Item} {b c : UInt8} {text : Str} :
    Begins (.lit c :: is) (b :: text) ↔ c = b ∧ Begins is text := by
  constructor
  · rintro ⟨w, rest, hw, h⟩
    cases h with
    | lit c' h =>
        cases hw
        exact ⟨rfl, _, rest, rfl, h⟩
  · rintro ⟨rfl, w, rest, rfl, h⟩
    exact ⟨c :: w, rest, rfl, .lit c h⟩

theorem begins_star {is : List Item} {c : UInt8} {text : Str} : Begins (.star c :: is) text ↔
    Begins is text ∨ ∃ b text', text = b :: text' ∧ (c = 46 ∨ b = c) ∧ Begins (.star c :: is) text' := by
  constructor
  · rintro ⟨w, rest, rfl, h⟩
    cases h with
    | @star _ _ u v _ hu h =>
        cases u with
        | nil => exact .inl ⟨v, rest, rfl, h⟩
        | cons b u =>
            right
            refine ⟨b, u ++ v ++ rest, rfl, hu b List.mem_cons_self, u ++ v, rest, rfl, .star ?_ h⟩
            intro b' hb'
            exact hu b' (List.mem_cons_of_mem _ hb')
  · rintro (⟨w, rest, rfl, h⟩ | ⟨b, text', rfl, hb, w, rest, rfl, h⟩)
    · exact ⟨w, rest, rfl, .star (w := []) (by simp) h⟩
    · cases h with
      | @star _ _ u v _ hu h =>
          refine ⟨b :: (u ++ v), rest, rfl, .star (w := b :: u) ?_ h⟩
          intro b' hb'
          rcases List.mem_cons.mp hb' with rfl | hb'
          · exact hb
          · exact hu b' hb'

theorem deref_eq_zero {p : Str} (h : 0 ∉ p) : deref p = 0 ↔ p = [] := by
  cases p with
  | nil => simp [deref_nil]
  | cons a p =>
      rw [deref_cons]
      constructor
      · rintro rfl
        exact absurd List.mem_cons_self h
      · intro hp
        cases hp

theorem matchstar_iff {c : UInt8} {re text : Str} (htext : 0 ∉ text)
    (hhere : ∀ text', 0 ∉ text' → (matchhere re text' = true ↔ Begins (items re) text')) :
    matchstar c re text = true ↔ Begins (.star c :: items re) text := by
  induction text with
  | nil =>
      rw [matchstar, begins_star, ← hhere [] htext]
      simp [deref_nil]
  | cons b text ih =>
      have hb : b ≠ 0 := fun hb => htext (hb ▸ List.mem_cons_self)
      have htext' : 0 ∉ text := fun h => htext (List.mem_cons_of_mem _ h)
      rw [matchstar, begins_star, ← hhere _ htext, deref_cons]
      by_cases hm : matchhere re (b :: text) = true
      · simp [hm]
      · rw [if_neg hm]
        by_cases hc : b = c ∨ c = 46
        · rw [if_pos ⟨hb, hc⟩, List.tail_cons, ih htext']
          constructor
          · intro h
            exact .inr ⟨b, text, rfl, hc.symm, h⟩
          · rintro (h | ⟨b', text', he, -, h⟩)
            · exact absurd h hm
            · cases he
              exact h
        · rw [if_neg (fun h => hc h.2)]
          constructor
          · intro h
            cases h
          · rintro (h | ⟨b', text', he, hb', -⟩)
            · exact absurd h hm
            · cases he
              exact absurd hb'.symm hc

theorem matchhere_iff {re text : Str} (hre : 0 ∉ re) (htext : 0 ∉ text) :
    matchhere re text = true ↔ Begins (items re) text := by
  -- The pattern gets shorter in every call, by two bytes in the one by way of `matchstar`.
  induction hn : re.length using Nat.strongRecOn generalizing re text with
  | ind n ih =>
    cases re with
    | nil =>
        rw [matchhere, if_pos deref_nil, items]
        simp [begins_nil]
    | cons c re =>
        have hc : c ≠ 0 := fun h => hre (h ▸ List.mem_cons_self)
        have hre' : 0 ∉ re := fun h => hre (List.mem_cons_of_mem _ h)
        have hrest (is : List Item) (hstep : items (c :: re) = (if c = 46 then .any else .lit c) :: is)
            (hnext : ∀ text', 0 ∉ text' → (matchhere re text' = true ↔ Begins is text')) :
            (if deref text ≠ 0 ∧ (c = 46 ∨ c = deref text) then matchhere re text.tail else false) = true ↔
              Begins (items (c :: re)) text := by
          rw [hstep]
          cases text with
          | nil =>
              have hno : ¬ Begins ((if c = 46 then .any else .lit c) :: is) [] := by
                split
                · exact not_begins_any is
                · exact not_begins_lit is c
              simp [hno, deref_nil]
          | cons b text =>
              rw [deref_cons]
              have hb : b ≠ 0 := fun hb => htext (hb ▸ List.mem_cons_self)
              have htext' : 0 ∉ text := fun h => htext (List.mem_cons_of_mem _ h)
              by_cases hany : c = 46
              · rw [if_pos hany, begins_any, if_pos ⟨hb, .inl hany⟩]
                exact hnext text htext'
              · rw [if_neg hany, begins_lit]
                by_cases hcb : c = b
                · rw [if_pos ⟨hb, .inr hcb⟩, List.tail_cons, hnext text htext']
                  simp [hcb]
                · rw [if_neg (fun h => h.2.elim hany hcb)]
                  simp [hcb]
        rw [matchhere, List.tail_cons, deref_cons, if_neg hc]
        cases re with
        | nil =>
            rw [deref_nil, if_neg (by decide)]
            by_cases hend : c = 36
            · rw [if_pos ⟨hend, rfl⟩, items, if_pos hend, begins_eot, decide_eq_true_eq, deref_eq_zero htext]
            · rw [if_neg (fun h => hend h.1)]
              refine hrest [] ?_ ?_
              · rw [items, if_neg hend]
              · intro text' _
                rw [matchhere, if_pos deref_nil]
                simp [begins_nil]
        | cons d re =>
            have hd : d ≠ 0 := fun h => hre' (h ▸ List.mem_cons_self)
            have hre'' : 0 ∉ re := fun h => hre' (List.mem_cons_of_mem _ h)
            rw [deref_cons]
            by_cases hstar : d = 42
            · rw [if_pos hstar, List.tail_cons, items, if_pos hstar]
              apply matchstar_iff htext
              intro text' htext'
              exact ih re.length (by rw [← hn, List.length_cons, List.length_cons]; omega) hre'' htext' rfl
            · rw [if_neg hstar, if_neg (fun h => hd h.2)]
              refine hrest (items (d :: re)) ?_ ?_
              · rw [items, if_neg hstar]
              · intro text' htext'
                exact ih (d :: re).length (by rw [← hn, List.length_cons (a := c)]; omega) hre' htext' rfl

theorem search_iff {re text : Str} (hre : 0 ∉ re) (htext : 0 ∉ text) :
    search re text = true ↔ ∃ s, s <:+ text ∧ Begins (items re) s := by
  induction text with
  | nil =>
      rw [search]
      simp [matchhere_iff hre htext, deref_nil]
  | cons b text ih =>
      have hb : b ≠ 0 := fun hb => htext (hb ▸ List.mem_cons_self)
      have htext' : 0 ∉ text := fun h => htext (List.mem_cons_of_mem _ h)
      rw [search, deref_cons]
      by_cases hm : matchhere re (b :: text) = true
      · rw [if_pos hm]
        exact ⟨fun _ => ⟨b :: text, List.suffix_refl _, (matchhere_iff hre htext).mp hm⟩, fun _ => rfl⟩
      · rw [if_neg hm, if_pos hb, List.tail_cons, ih htext']
        rw [matchhere_iff hre htext] at hm
        constructor
        · rintro ⟨s, hs, h⟩
          exact ⟨s, hs.trans (List.suffix_cons b text), h⟩
        · rintro ⟨s, hs, h⟩
          rcases List.suffix_cons_iff.mp hs with rfl | hs
          · exact absurd h hm
          · exact ⟨s, hs, h⟩

/-- `match` finds what its pattern says: at the beginning of the text if the pattern starts with `^`, and
anywhere in it otherwise. -/
theorem match_iff {re text : Str} (hre : 0 ∉ re) (htext : 0 ∉ text) : match' re text = true ↔
    if re.head? = some 94 then Begins (items re.tail) text else ∃ s, s <:+ text ∧ Begins (items re) s := by
  have hhead : deref re = 94 ↔ re.head? = some 94 := by
    cases re with
    | nil => simp [deref_nil]
    | cons c re => simp [deref_cons]
  rw [match']
  by_cases h : deref re = 94
  · rw [if_pos h, if_pos (hhead.mp h)]
    exact matchhere_iff (fun h0 => hre (List.mem_of_mem_tail h0)) htext
  · rw [if_neg h, if_neg (fun h' => h (hhead.mpr h'))]
    exact search_iff hre htext

theorem match_iff_starred : match' [97, 42, 98] [99, 97, 97, 98] = true := by
  apply (match_iff (by decide) (by decide)).mpr
  rw [if_neg (by decide)]
  refine ⟨[97, 97, 98], List.suffix_cons 99 _, [97, 97, 98], [], rfl, ?_⟩
  have hw : ∀ b ∈ ([97, 97] : Str), (97 : UInt8) = 46 ∨ b = 97 := by simp
  exact .star hw (.lit 98 (.nil []))

end Xv6.Grep
