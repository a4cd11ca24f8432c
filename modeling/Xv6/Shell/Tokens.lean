import Mathlib
import Xv6.Shell.Model

namespace Xv6.Shell

open Lib Lib.Exec

inductive Token
  | bar
  | lparen
  | rparen
  | semi
  | amp
  | lt
  | gt
  | gtgt
  | word (w : Span)
  deriving DecidableEq

def tokens : Ptr → List Token
  | [] => []
  | c :: s =>
      if isSpace c then tokens s
      else if c.val = 124 then .bar :: tokens s
      else if c.val = 40 then .lparen :: tokens s
      else if c.val = 41 then .rparen :: tokens s
      else if c.val = 59 then .semi :: tokens s
      else if c.val = 38 then .amp :: tokens s
      else if c.val = 60 then .lt :: tokens s
      else if c.val = 62 then
        if deref s = 62 then .gtgt :: tokens s.tail else .gt :: tokens s
      else .word ⟨c :: s, s.dropWhile isWord⟩ :: tokens (s.dropWhile isWord)
termination_by s => s.length
decreasing_by
  all_goals simp only [List.length_cons, List.length_tail]
  all_goals first | omega | exact Nat.lt_succ_of_le (List.length_dropWhile_le ..)

/-- What `gettoken` returns for a token. -/
def Token.code : Token → UInt8
  | .bar => 124
  | .lparen => 40
  | .rparen => 41
  | .semi => 59
  | .amp => 38
  | .lt => 60
  | .gt => 62
  | .gtgt => 43
  | .word _ => 97

def Token.symbol : Token → Option UInt8
  | .bar => some 124
  | .lparen => some 40
  | .rparen => some 41
  | .semi => some 59
  | .amp => some 38
  | .lt => some 60
  | .gt | .gtgt => some 62
  | .word _ => none

theorem tokens_skip (s : Ptr) : tokens (skip s) = tokens s := by
  induction s with
  | nil => rfl
  | cons c s ih =>
      by_cases hc : isSpace c
      · rw [skip, List.dropWhile_cons_of_pos hc, tokens, if_pos hc]
        exact ih
      · rw [skip, List.dropWhile_cons_of_neg hc]

theorem length_tokens_le (s : Ptr) : (tokens s).length ≤ s.length := by
  induction s using tokens.induct with
  | case1 => simp [tokens]
  | case2 c s hc ih =>
      rw [tokens, if_pos hc]
      exact Nat.le_succ_of_le ih
  | case9 c s hc h1 h2 h3 h4 h5 h6 h7 hgt ih =>
      rw [tokens, if_neg hc, if_neg h1, if_neg h2, if_neg h3, if_neg h4, if_neg h5, if_neg h6,
        if_pos h7, if_pos hgt]
      simp only [List.length_tail, List.length_cons] at ih ⊢
      omega
  | case11 c s hc h1 h2 h3 h4 h5 h6 h7 ih =>
      rw [tokens, if_neg hc, if_neg h1, if_neg h2, if_neg h3, if_neg h4, if_neg h5, if_neg h6, if_neg h7]
      have := List.length_dropWhile_le isWord s
      simp only [List.length_cons]
      omega
  | _ =>
      rw [tokens]
      simp [*]

theorem skip_cons {s r : Ptr} {c : Byte} (h : skip s = c :: r) : isSpace c = false := by
  induction s with
  | nil => cases h
  | cons d s ih =>
      by_cases hd : isSpace d
      · rw [skip, List.dropWhile_cons_of_pos hd] at h
        exact ih h
      · rw [skip, List.dropWhile_cons_of_neg hd] at h
        cases h
        simpa using hd

theorem scan_word {c : Byte} {r : Ptr} (hc : isSpace c = false) (h : symbols.contains c.val = false) :
    scan (c :: r) = (97, r.dropWhile isWord) := by
  have hw : isWord c = true := by
    rw [isWord, h]
    simpa [isSpace] using hc
  have hall : c.val ≠ 124 ∧ c.val ≠ 40 ∧ c.val ≠ 41 ∧ c.val ≠ 59 ∧ c.val ≠ 38 ∧ c.val ≠ 60 ∧ c.val ≠ 62 := by
    simp only [symbols, List.contains_cons, List.contains_nil, Bool.or_false, Bool.or_eq_false_iff,
      beq_eq_false_iff_ne] at h
    tauto
  obtain ⟨h1, h2, h3, h4, h5, h6, h7⟩ := hall
  rw [scan, deref]
  split <;> first
    | exact absurd ‹c.val = _› ‹_›
    | exact absurd ‹c.val = 0› c.property
    | rw [List.dropWhile_cons_of_pos hw]

def lead (c : Byte) : Option UInt8 := if symbols.contains c.val then some c.val else none

theorem scan_cons {c : Byte} {r : Ptr} (hc : isSpace c = false) :
    ∃ t, tokens (c :: r) = t :: tokens (scan (c :: r)).2 ∧ (scan (c :: r)).1 = t.code ∧
      (∀ w, t = .word w → w = ⟨c :: r, (scan (c :: r)).2⟩) ∧
      t.symbol = lead c := by
  obtain ⟨c, hne⟩ := c
  rw [tokens, if_neg (by simp [hc])]
  split_ifs with h1 h2 h3 h4 h5 h6 h7 hgt
  · cases h1
    exact ⟨.bar, rfl, rfl, nofun, rfl⟩
  · cases h2
    exact ⟨.lparen, rfl, rfl, nofun, rfl⟩
  · cases h3
    exact ⟨.rparen, rfl, rfl, nofun, rfl⟩
  · cases h4
    exact ⟨.semi, rfl, rfl, nofun, rfl⟩
  · cases h5
    exact ⟨.amp, rfl, rfl, nofun, rfl⟩
  · cases h6
    exact ⟨.lt, rfl, rfl, nofun, rfl⟩
  · obtain rfl : c = 62 := h7
    have hscan : scan (⟨62, hne⟩ :: r) = (43, r.tail) := if_pos hgt
    rw [hscan]
    exact ⟨.gtgt, rfl, rfl, nofun, rfl⟩
  · obtain rfl : c = 62 := h7
    have hscan : scan (⟨62, hne⟩ :: r) = (62, r) := if_neg hgt
    rw [hscan]
    exact ⟨.gt, rfl, rfl, nofun, rfl⟩
  · have hsym : symbols.contains c = false := by simp_all [symbols]
    rw [scan_word hc hsym]
    refine ⟨_, rfl, rfl, ?_, ?_⟩
    · rintro w ⟨⟩
      rfl
    · rw [lead, hsym]
      rfl

def starts (toks : List UInt8) : List Token → Bool
  | [] => false
  | t :: _ => t.symbol.any toks.contains

section Rules

variable {s : Ptr} {t : Token} {ts : List Token} {X : Err → Prop}

theorem peek_eq {toks : List UInt8} (h : toks ⊆ symbols) : peek toks s = .ok (starts toks (tokens s), skip s) := by
  have hzero : (0 : UInt8) ∉ toks := fun h0 => absurd (h h0) (by decide)
  rw [peek, ← tokens_skip]
  cases hs : skip s with
  | nil => simp [deref, tokens, starts, hzero]
  | cons c r =>
      obtain ⟨t, ht, -, -, hsym⟩ := scan_cons (r := r) (skip_cons hs)
      rw [ht, starts, hsym, deref, lead]
      split
      next => rfl
      next hno =>
        have hc : c.val ∉ toks := fun hc => hno (by simpa using h hc)
        simp [hc]

theorem wp_peek {toks : List UInt8} {Q : Bool → Ptr → Prop} (h : toks ⊆ symbols)
    (hQ : ∀ s', tokens s' = tokens s → Q (starts toks (tokens s)) s') : wp (peek toks) Q X s := by
  rw [wp, peek_eq h]
  exact hQ _ (tokens_skip s)

theorem wp_gettoken_nil {Q : UInt8 × Span → Ptr → Prop} (h : tokens s = [])
    (hQ : ∀ s' w, tokens s' = [] → Q (0, w) s') : wp gettoken Q X s := by
  cases hs : skip s with
  | nil =>
      rw [wp, gettoken]
      simp only [hs]
      have hnil : tokens [] = [] := by rw [tokens]
      exact hQ _ _ ((tokens_skip []).trans hnil)
  | cons c r =>
      obtain ⟨t, ht, -⟩ := scan_cons (r := r) (skip_cons hs)
      rw [← hs, tokens_skip, h] at ht
      cases ht

theorem wp_gettoken_cons {Q : UInt8 × Span → Ptr → Prop} (h : tokens s = t :: ts)
    (hQ : ∀ s' w, tokens s' = ts → (∀ v, t = .word v → v = w) → Q (t.code, w) s') : wp gettoken Q X s := by
  cases hs : skip s with
  | nil =>
      rw [← tokens_skip, hs, tokens] at h
      cases h
  | cons c r =>
      obtain ⟨u, hu, hcode, hword, -⟩ := scan_cons (r := r) (skip_cons hs)
      rw [← tokens_skip, hs, hu] at h
      cases h
      rw [wp, gettoken]
      simp only [hs, hcode]
      exact hQ _ _ (tokens_skip _) hword

end Rules

end Xv6.Shell
