import Xv6.Grep.Match

namespace Xv6.Grep

def strchr (c : UInt8) : Str → Option Str
  | [] => none
  | a :: s => if a = 0 then none else if a = c then some (a :: s) else strchr c s

theorem strchr_none {c : UInt8} {s : Str} (h0 : 0 ∉ s) : strchr c s = none ↔ c ∉ s := by
  induction s with
  | nil => simp [strchr]
  | cons a s ih =>
      have ha : a ≠ 0 := fun ha => h0 (ha ▸ List.mem_cons_self)
      rw [strchr, if_neg ha]
      by_cases hc : a = c
      · simp [hc]
      · rw [if_neg hc, ih (fun h => h0 (List.mem_cons_of_mem _ h)), List.mem_cons, not_or]
        exact ⟨fun h => ⟨Ne.symm hc, h⟩, And.right⟩

theorem strchr_some {c : UInt8} {s q : Str} (h : strchr c s = some q) :
    ∃ l r, s = l ++ c :: r ∧ c ∉ l ∧ q = c :: r := by
  induction s with
  | nil => cases h
  | cons a s ih =>
      rw [strchr] at h
      split at h
      · cases h
      · split at h
        · next hc =>
          cases h
          exact ⟨[], s, by rw [hc]; rfl, by simp, by rw [hc]⟩
        · next hc =>
          obtain ⟨l, r, rfl, hl, rfl⟩ := ih h
          exact ⟨a :: l, r, rfl, by simp [Ne.symm hc, hl], rfl⟩

theorem strchr_length {c : UInt8} {s q : Str} (h : strchr c s = some q) : q.tail.length < s.length := by
  obtain ⟨l, r, rfl, -, rfl⟩ := strchr_some h
  rw [List.tail_cons, List.length_append, List.length_cons]
  omega

/-- The inner loop of `grep` from `p` on: what it writes, and where it leaves `p`. -/
def scan (pattern p : Str) : Str × Str :=
  match h : strchr 10 p with
  | none => ([], p)
  | some q =>
      -- `*q` is NUL while `match` looks at the line
      let line := p.take (p.length - q.length)
      let rest := scan pattern q.tail
      (if match' pattern line then line ++ [10] ++ rest.1 else rest.1, rest.2)
termination_by p.length
decreasing_by exact strchr_length h

/-- The outer loop of `grep`, where `buf` is the first `m` bytes of the buffer and the pieces are what `read` is
going to return. -/
def grepLoop (pattern : Str) : (buf : Str) → List Str → Str
  | _, [] => []
  | buf, piece :: pieces =>
      if piece.length = 0 then []
      else
        let buf' := buf ++ piece
        let r := scan pattern buf'
        r.1 ++ grepLoop pattern (if r.2.length = buf'.length then [] else r.2) pieces

def grep (pattern : Str) (pieces : List Str) : Str := grepLoop pattern [] pieces

def lines (input : Str) : List Str := (input.splitOnP (· == 10)).dropLast

def wanted (pattern input : Str) : Str := ((lines input).filter (match' pattern)).flatMap (· ++ [10])

theorem beq_newline {s : Str} (h : 10 ∉ s) : ∀ b ∈ s, (b == 10) = false := by
  intro b hb
  rw [beq_eq_false_iff_ne]
  rintro rfl
  exact h hb

theorem wanted_of_notMem {input : Str} (pattern : Str) (h : 10 ∉ input) : wanted pattern input = [] := by
  rw [wanted, lines, List.splitOnP_eq_singleton (beq_newline h)]
  rfl

theorem wanted_line {line : Str} (pattern rest : Str) (h : 10 ∉ line) : wanted pattern (line ++ 10 :: rest) =
    (if match' pattern line then line ++ [10] else []) ++ wanted pattern rest := by
  have hlines : lines (line ++ 10 :: rest) = line :: lines rest := by
    rw [lines, List.splitOnP_append_cons_of_forall_mem (beq_newline h) 10 rfl, List.dropLast_cons_of_ne_nil
      (List.splitOnP_ne_nil _ _)]
    rfl
  rw [wanted, hlines, List.filter_cons]
  split
  · rfl
  · rfl

theorem scan_spec (pattern p : Str) (h0 : 0 ∉ p) : 10 ∉ (scan pattern p).2 ∧ (scan pattern p).2 <:+ p ∧
    ∀ input, wanted pattern (p ++ input) = (scan pattern p).1 ++ wanted pattern ((scan pattern p).2 ++ input) := by
  induction hn : p.length using Nat.strongRecOn generalizing p with
  | ind n ih =>
    rw [scan]
    split
    next h => exact ⟨(strchr_none h0).mp h, List.suffix_refl p, fun _ => rfl⟩
    next q h =>
      obtain ⟨l, r, rfl, hl, rfl⟩ := strchr_some h
      have h0' : 0 ∉ r := fun hr => h0 (List.mem_append_right _ (List.mem_cons_of_mem _ hr))
      have hlt : r.length < n := by
        rw [← hn, List.length_append, List.length_cons]
        omega
      obtain ⟨hend, hsuffix, hwanted⟩ := ih r.length hlt r h0' rfl
      have hline : (l ++ 10 :: r).take ((l ++ 10 :: r).length - (10 :: r).length) = l := by simp
      simp only [List.tail_cons, hline]
      refine ⟨hend, hsuffix.trans ⟨l ++ [10], by simp⟩, ?_⟩
      intro input
      rw [List.append_assoc, List.cons_append, wanted_line pattern _ hl, hwanted]
      split
      · simp only [List.append_assoc]
      · rfl

theorem scan_stays {pattern p : Str} (h0 : 0 ∉ p) : (scan pattern p).2.length = p.length ↔ 10 ∉ p := by
  constructor
  · intro hlen
    obtain ⟨hend, hsuffix, -⟩ := scan_spec pattern p h0
    rw [hsuffix.eq_of_length hlen] at hend
    exact hend
  · intro h
    rw [scan]
    split
    next => rfl
    next q hq => exact absurd hq (by rw [(strchr_none h0).mpr h]; simp)

theorem scan_of_notMem {pattern p : Str} (h0 : 0 ∉ p) (h : 10 ∉ p) : (scan pattern p).1 = [] := by
  rw [scan]
  split
  next => rfl
  next q hq => exact absurd hq (by rw [(strchr_none h0).mpr h]; simp)

def Unbroken (pieces : List Str) : Prop := ∀ xs y zs, pieces = xs ++ y :: zs → 10 ∈ zs.flatten → 10 ∈ y

theorem unbroken_cons {x : Str} {xs : List Str} :
    Unbroken (x :: xs) ↔ (10 ∈ xs.flatten → 10 ∈ x) ∧ Unbroken xs := by
  constructor
  · intro h
    refine ⟨h [] x xs rfl, ?_⟩
    rintro ys y zs rfl
    exact h (x :: ys) y zs rfl
  · rintro ⟨hx, hxs⟩ ys y zs he
    cases ys with
    | nil =>
        cases he
        exact hx
    | cons y' ys =>
        cases he
        exact hxs ys y zs rfl

theorem unbroken_of_notMem {pieces : List Str} (h : 10 ∉ pieces.flatten) : Unbroken pieces := by
  rintro xs y zs rfl hz
  refine absurd ?_ h
  rw [List.flatten_append, List.flatten_cons]
  exact List.mem_append_right _ (List.mem_append_right _ hz)

/-- What `read` returns is not empty, contains no NUL, and is not longer than what `grep` asks for, which has
the first `m` bytes of its buffer in use. -/
def Fits : (buf : Str) → List Str → Prop
  | _, [] => True
  | buf, piece :: pieces =>
      piece ≠ [] ∧ 0 ∉ piece ∧ piece.length ≤ 1024 - buf.length - 1 ∧
        Fits (if (scan [] (buf ++ piece)).2.length = (buf ++ piece).length then [] else (scan []
          (buf ++ piece)).2) pieces

section Loop

variable {pattern buf piece : Str} {pieces : List Str}

theorem scan_snd (pattern pattern' p : Str) : (scan pattern p).2 = (scan pattern' p).2 := by
  induction hn : p.length using Nat.strongRecOn generalizing p with
  | ind n ih =>
    rw [scan, scan]
    split
    next => rfl
    next q h => exact ih q.tail.length (by rw [← hn]; exact strchr_length h) q.tail rfl

theorem grepLoop_cons (pattern : Str) (h : Fits buf (piece :: pieces)) (h0 : 0 ∉ buf) :
    grepLoop pattern buf (piece :: pieces) = (scan pattern (buf ++ piece)).1 ++
      grepLoop pattern (if 10 ∈ buf ++ piece then (scan pattern (buf ++ piece)).2 else []) pieces := by
  have hne : piece.length ≠ 0 := fun h' => h.1 (List.length_eq_zero_iff.mp h')
  have h0' : 0 ∉ buf ++ piece := by
    rw [List.mem_append, not_or]
    exact ⟨h0, h.2.1⟩
  rw [grepLoop, if_neg hne]
  dsimp only
  by_cases h10 : 10 ∈ buf ++ piece
  · rw [if_pos h10, if_neg (fun hlen => (scan_stays h0').mp hlen h10)]
  · rw [if_neg h10, if_pos ((scan_stays h0').mpr h10)]

theorem Fits.rest (pattern : Str) (h : Fits buf (piece :: pieces)) (h0 : 0 ∉ buf) :
    Fits (if 10 ∈ buf ++ piece then (scan pattern (buf ++ piece)).2 else []) pieces := by
  have h0' : 0 ∉ buf ++ piece := by
    rw [List.mem_append, not_or]
    exact ⟨h0, h.2.1⟩
  have hrest := h.2.2.2
  rw [scan_snd [] pattern] at hrest
  by_cases h10 : 10 ∈ buf ++ piece
  · rw [if_neg (fun hlen => (scan_stays h0').mp hlen h10)] at hrest
    rw [if_pos h10]
    exact hrest
  · rw [if_pos ((scan_stays h0').mpr h10)] at hrest
    rw [if_neg h10]
    exact hrest

theorem scan_carry (pattern : Str) (h0 : 0 ∉ buf ++ piece) :
    0 ∉ (if 10 ∈ buf ++ piece then (scan pattern (buf ++ piece)).2 else []) ∧
      10 ∉ (if 10 ∈ buf ++ piece then (scan pattern (buf ++ piece)).2 else []) := by
  obtain ⟨hend, hsuffix, -⟩ := scan_spec pattern _ h0
  split
  · exact ⟨fun h => h0 (hsuffix.mem h), hend⟩
  · simp

theorem grepLoop_eq (pattern : Str) (h : Fits buf pieces) (h0 : 0 ∉ buf) (h10 : 10 ∉ buf) (hu : Unbroken pieces) :
    grepLoop pattern buf pieces = wanted pattern (buf ++ pieces.flatten) := by
  induction pieces generalizing buf with
  | nil => rw [List.flatten_nil, List.append_nil, wanted_of_notMem pattern h10, grepLoop]
  | cons piece pieces ih =>
      have h0' : 0 ∉ buf ++ piece := by
        rw [List.mem_append, not_or]
        exact ⟨h0, h.2.1⟩
      obtain ⟨hx, hu'⟩ := unbroken_cons.mp hu
      obtain ⟨hc0, hc10⟩ := scan_carry pattern h0'
      rw [grepLoop_cons pattern h h0, ih (h.rest pattern h0) hc0 hc10 hu', List.flatten_cons, ← List.append_assoc]
      by_cases hb : 10 ∈ buf ++ piece
      · rw [if_pos hb, (scan_spec pattern _ h0').2.2]
      · have hnone : 10 ∉ pieces.flatten := fun hm => hb (List.mem_append_right _ (hx hm))
        have hall : 10 ∉ buf ++ piece ++ pieces.flatten := by
          rw [List.mem_append, not_or]
          exact ⟨hb, hnone⟩
        rw [if_neg hb, scan_of_notMem h0' hb, wanted_of_notMem pattern hall, List.nil_append,
          List.nil_append, wanted_of_notMem pattern hnone]

end Loop

/-! The empty pattern matches every line, so with it nothing may be missing. -/

theorem match_empty (text : Str) : match' [] text := by
  simp [match', search, matchhere, deref]

theorem wanted_empty (input : Str) {rest : Str} (h : 10 ∈ rest) :
    wanted [] (input ++ rest) = input ++ wanted [] rest := by
  induction hn : input.length using Nat.strongRecOn generalizing input with
  | ind n ih =>
    by_cases hi : 10 ∈ input
    · obtain ⟨l, r, rfl, hl⟩ := List.eq_append_cons_of_mem hi
      have hlt : r.length < n := by
        rw [← hn, List.length_append, List.length_cons]
        omega
      rw [List.append_assoc, List.cons_append, wanted_line [] _ hl, if_pos (match_empty l), ih r.length hlt r rfl]
      simp
    · obtain ⟨l, r, rfl, hl⟩ := List.eq_append_cons_of_mem h
      have hil : 10 ∉ input ++ l := by
        rw [List.mem_append, not_or]
        exact ⟨hi, hl⟩
      rw [← List.append_assoc, wanted_line [] _ hil, wanted_line [] _ hl, if_pos (match_empty l),
        if_pos (match_empty (input ++ l))]
      simp

theorem wanted_length_le (input rest : Str) : (wanted [] rest).length ≤ (wanted [] (input ++ rest)).length := by
  by_cases h : 10 ∈ rest
  · rw [wanted_empty input h, List.length_append]
    omega
  · rw [wanted_of_notMem [] h]
    exact Nat.zero_le _

section Loss

variable {buf : Str} {pieces : List Str}

theorem grepLoop_length (h : Fits buf pieces) (h0 : 0 ∉ buf) (h10 : 10 ∉ buf) :
    (grepLoop [] buf pieces).length ≤ (wanted [] (buf ++ pieces.flatten)).length ∧
      (¬ Unbroken pieces → (grepLoop [] buf pieces).length < (wanted [] (buf ++ pieces.flatten)).length) := by
  induction pieces generalizing buf with
  | nil => exact ⟨Nat.zero_le _, fun hu => absurd (unbroken_of_notMem (by simp)) hu⟩
  | cons piece pieces ih =>
      have h0' : 0 ∉ buf ++ piece := by
        rw [List.mem_append, not_or]
        exact ⟨h0, h.2.1⟩
      obtain ⟨hc0, hc10⟩ := scan_carry [] h0'
      obtain ⟨hle, hlt⟩ := ih (h.rest [] h0) hc0 hc10
      rw [grepLoop_cons [] h h0, List.flatten_cons, ← List.append_assoc, unbroken_cons]
      by_cases hb : 10 ∈ buf ++ piece
      · have hpiece : 10 ∈ piece := (List.mem_append.mp hb).resolve_left h10
        rw [if_pos hb] at hle hlt ⊢
        rw [(scan_spec [] _ h0').2.2, List.length_append, List.length_append]
        refine ⟨by omega, fun hu => ?_⟩
        have := hlt (fun hu' => hu ⟨fun _ => hpiece, hu'⟩)
        omega
      · have hpiece : 10 ∉ piece := fun hp => hb (List.mem_append_right _ hp)
        have hmore := wanted_length_le (buf ++ piece) pieces.flatten
        rw [if_neg hb, List.nil_append] at hle hlt
        rw [if_neg hb, scan_of_notMem h0' hb, List.nil_append]
        refine ⟨by omega, fun hu => ?_⟩
        by_cases hrest : 10 ∈ pieces.flatten
        · have hpos : 0 < piece.length := List.length_pos_of_ne_nil h.1
          rw [wanted_empty _ hrest, List.length_append, List.length_append]
          omega
        · have := hlt (fun hu' => hu ⟨fun hm => absurd hm hrest, hu'⟩)
          omega

end Loss

/-- `grep` writes the matching lines, whatever the pattern is, exactly if no `read` before the last newline of the
input returns a piece without a newline: the bytes of such a piece are thrown away with the line they begin. -/
theorem grep_writes_lines (pieces : List Str) (h : Fits [] pieces) :
    (∀ pattern, grep pattern pieces = wanted pattern pieces.flatten) ↔ Unbroken pieces := by
  constructor
  · intro hall
    by_contra hu
    have hlt := (grepLoop_length h List.not_mem_nil List.not_mem_nil).2 hu
    rw [List.nil_append, ← hall []] at hlt
    exact absurd hlt (Nat.lt_irrefl _)
  · intro hu pattern
    exact grepLoop_eq pattern h List.not_mem_nil List.not_mem_nil hu

theorem grep_writes_lines_halves : Fits [] [[97, 10, 98], [98, 10]] ∧
    ∀ pattern, grep pattern [[97, 10, 98], [98, 10]] = wanted pattern [97, 10, 98, 98, 10] := by
  have hfits : Fits [] [[97, 10, 98], [98, 10]] := by
    simp [Fits, scan, strchr]
  refine ⟨hfits, (grep_writes_lines _ hfits).mpr ?_⟩
  rw [unbroken_cons, unbroken_cons]
  refine ⟨by decide, by decide, unbroken_of_notMem (by decide)⟩

/-- The line "a" comes out if it is read as a whole, and not if its newline is read by itself. -/
theorem grep_loses_line : Fits [] [[97, 10]] ∧ Fits [] [[97], [10]] ∧ [[97, 10]].flatten = [[97], [10]].flatten ∧
    grep [97] [[97, 10]] = [97, 10] ∧ grep [97] [[97], [10]] = [] ∧ wanted [97] [97, 10] = [97, 10] := by
  have hmatch : match' [97] [97] := by simp [match', search, matchhere, deref]
  refine ⟨by simp [Fits], by simp [Fits, scan, strchr], rfl, ?_, ?_, ?_⟩
  · simp [grep, grepLoop, scan, strchr, hmatch]
  · simp [grep, grepLoop, scan, strchr, match', search, matchhere, deref]
  · have hline := wanted_line [97] [] (show 10 ∉ [97] by decide)
    rw [if_pos hmatch, wanted_of_notMem [97] List.not_mem_nil] at hline
    exact hline

end Xv6.Grep
