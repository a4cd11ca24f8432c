import Xv6.Shell.Accept

namespace Xv6.Shell

abbrev Buffer := Nat → UInt8

def offset (s p : Ptr) : Nat := s.length - p.length

def store (s : Ptr) (buf : Buffer) (p : Ptr) : Buffer := Function.update buf (offset s p) 0

def terminate (s : Ptr) : Cmd → Buffer → Buffer
  | .exec argv, buf => argv.foldl (fun buf arg => store s buf arg.eq) buf
  | .redir cmd file _ _, buf => store s (terminate s cmd buf) file.eq
  | .pipe left right, buf => terminate s right (terminate s left buf)
  | .list left right, buf => terminate s right (terminate s left buf)
  | .back cmd, buf => terminate s cmd buf

/-- A string without NUL bytes is at a place of the buffer, with a NUL after it. -/
structure CString (buf : Buffer) (a : Nat) (text : Ptr) : Prop where
  byte : ∀ i c, text[i]? = some c → buf (a + i) = c.val
  nul : buf (a + text.length) = 0

def Span.textIn (s : Ptr) (w : Span) : Ptr := (s.drop (offset s w.q)).take (offset s w.eq - offset s w.q)

section Offset

variable {s p : Ptr}

theorem drop_offset (h : p <:+ s) : s.drop (offset s p) = p := by
  obtain ⟨l, rfl⟩ := h
  simp [offset]

theorem getElem?_offset (h : p <:+ s) (i : Nat) : s[offset s p + i]? = p[i]? := by
  rw [← List.getElem?_drop, drop_offset h]

end Offset

section Store

variable {s : Ptr} {buf : Buffer}

theorem terminate_eq (s : Ptr) (c : Cmd) (buf : Buffer) :
    terminate s c buf = (nulterminate c).foldl (store s) buf := by
  induction c generalizing buf with
  | exec argv => rw [terminate, nulterminate, List.foldl_map]
  | redir cmd file mode fd ih =>
      rw [terminate, nulterminate, List.foldl_append, ih, List.foldl_cons, List.foldl_nil]
  | pipe left right ihl ihr => rw [terminate, nulterminate, List.foldl_append, ihl, ihr]
  | list left right ihl ihr => rw [terminate, nulterminate, List.foldl_append, ihl, ihr]
  | back cmd ih => rw [terminate, nulterminate, ih]

theorem foldl_store (nuls : List Ptr) (i : Nat) :
    nuls.foldl (store s) buf i = if ∃ p ∈ nuls, offset s p = i then 0 else buf i := by
  induction nuls generalizing buf with
  | nil => simp
  | cons p nuls ih =>
      rw [List.foldl_cons, ih, store, Function.update_apply]
      by_cases hi : ∃ p ∈ nuls, offset s p = i
      · obtain ⟨q, hq, rfl⟩ := hi
        rw [if_pos ⟨q, hq, rfl⟩, if_pos ⟨q, List.mem_cons_of_mem _ hq, rfl⟩]
      · rw [if_neg hi]
        by_cases hp : i = offset s p
        · rw [if_pos hp, if_pos ⟨p, List.mem_cons_self, hp.symm⟩]
        · rw [if_neg hp, if_neg]
          rintro ⟨q, hq, rfl⟩
          rcases List.mem_cons.mp hq with rfl | hq
          · exact hp rfl
          · exact hi ⟨q, hq, rfl⟩

end Store

theorem suffix_of_tokens {s : Ptr} {w : Span} (h : .word w ∈ tokens s) : w.q <:+ s := by
  induction s using tokens.induct with
  | case1 => simp [tokens] at h
  | case11 c s hc h1 h2 h3 h4 h5 h6 h7 ih =>
      rw [tokens, if_neg hc, if_neg h1, if_neg h2, if_neg h3, if_neg h4, if_neg h5, if_neg h6, if_neg h7] at h
      rcases List.mem_cons.mp h with hw | hw
      · cases hw
        exact List.suffix_refl _
      · exact ((ih hw).trans (List.dropWhile_suffix isWord)).trans (List.suffix_cons c s)
  | case9 c s hc h1 h2 h3 h4 h5 h6 h7 h8 ih =>
      rw [tokens, if_neg hc, if_neg h1, if_neg h2, if_neg h3, if_neg h4, if_neg h5, if_neg h6, if_pos h7,
        if_pos h8] at h
      have hw : .word w ∈ tokens s.tail := by simpa using h
      exact ((ih hw).trans (List.tail_suffix s)).trans (List.suffix_cons c s)
  | _ =>
      rename_i ih
      rw [tokens] at h
      simp_all [List.suffix_cons_iff]

structure Holds (buf : Buffer) (s : Ptr) : Prop where
  byte : ∀ i c, s[i]? = some c → buf i = c.val
  nul : buf s.length = 0

theorem Span.Word.eq_suffix {w : Span} (h : w.Word) : w.eq <:+ w.q := by
  rw [← h.dropWhile_eq]
  exact List.dropWhile_suffix isWord

theorem Span.Word.textIn_eq {s : Ptr} {w : Span} (h : w.Word) (hq : w.q <:+ s) : w.textIn s = w.text := by
  have hsplit := List.takeWhile_append_dropWhile (p := isWord) (l := w.q)
  have hlen := congrArg List.length hsplit
  rw [List.length_append, h.dropWhile_eq] at hlen
  have hle := hq.length_le
  have hoff : offset s w.eq - offset s w.q = (w.q.takeWhile isWord).length := by
    unfold offset
    omega
  rw [textIn, drop_offset hq, hoff, text]
  nth_rewrite 2 [← hsplit]
  exact List.take_left

theorem getElem?_text {w : Span} {i : Nat} {c : Byte} (h : w.text[i]? = some c) : w.q[i]? = some c := by
  obtain ⟨t, ht⟩ := List.takeWhile_prefix (l := w.q) isWord
  rw [Span.text] at h
  rw [← ht, List.getElem?_append_left (List.getElem?_eq_some_iff.mp h).1]
  exact h

section Survive

variable {s : Ptr} {buf : Buffer} {nuls : List Ptr}

theorem store_misses_word {w : Span} (hw : w.q <:+ s) (hnuls : ∀ z ∈ nuls, z <:+ s)
    (hends : ∀ z ∈ nuls, ∀ c r, z = c :: r → isWord c = false) {i : Nat} {c : Byte} (hi : w.text[i]? = some c) :
    ¬ ∃ z ∈ nuls, offset s z = offset s w.q + i := by
  rintro ⟨z, hz, heq⟩
  have hc : isWord c = true := List.mem_takeWhile_imp (List.mem_of_getElem? hi)
  have hq : w.q[i]? = some c := getElem?_text hi
  have hline := getElem?_offset hw i
  rw [← heq, hq] at hline
  have hz0 := getElem?_offset (hnuls z hz) 0
  rw [Nat.add_zero, hline] at hz0
  cases z with
  | nil => cases hz0
  | cons d r =>
      rw [List.getElem?_cons_zero, Option.some.injEq] at hz0
      rw [hz0, hends _ hz d r rfl] at hc
      cases hc

theorem cstring_of_word {w : Span} (hw : w.Word) (hq : w.q <:+ s) (hbuf : Holds buf s) (hnuls : ∀ z ∈ nuls, z <:+ s)
    (hends : ∀ z ∈ nuls, ∀ c r, z = c :: r → isWord c = false) (hmem : w.eq ∈ nuls) :
    CString (nuls.foldl (store s) buf) (offset s w.q) w.text := by
  have hsplit := List.takeWhile_append_dropWhile (p := isWord) (l := w.q)
  refine ⟨?_, ?_⟩
  · intro i c hi
    have hqi : w.q[i]? = some c := getElem?_text hi
    rw [foldl_store, if_neg (store_misses_word hq hnuls hends hi)]
    apply hbuf.byte
    rw [getElem?_offset hq, hqi]
  · have hlen := congrArg List.length hsplit
    rw [List.length_append, hw.dropWhile_eq] at hlen
    have hle := hq.length_le
    rw [foldl_store, if_pos]
    refine ⟨w.eq, hmem, ?_⟩
    unfold offset Span.text
    omega

end Survive

/-- After `nulterminate` every word of a command that `parsecmd` returns is a string in the buffer again: the
text that its token has in the line. -/
theorem words_survive (s : Ptr) (buf : Buffer) (hbuf : Holds buf s) (c : Cmd) (nuls : List Ptr)
    (h : parsecmd s = .ok (c, nuls)) (w : Span) (hw : w ∈ c.spans) :
    .word w ∈ tokens s ∧ CString (terminate s c buf) (offset s w.q) (w.textIn s) := by
  have hderives := (parsecmd_sound h).1
  have htoken (v : Span) (hv : v ∈ c.spans) : .word v ∈ tokens s := hderives.words hv
  have hword (v : Span) (hv : v ∈ c.spans) : v.Word := word_of_tokens s v (htoken v hv)
  have hq := suffix_of_tokens (htoken w hw)
  refine ⟨htoken w hw, ?_⟩
  rw [terminate_eq, nulterminate_eq, (hword w hw).textIn_eq hq]
  apply cstring_of_word (hword w hw) hq hbuf
  · intro z hz
    obtain ⟨v, hv, rfl⟩ := List.mem_map.mp hz
    exact (hword v hv).eq_suffix.trans (suffix_of_tokens (htoken v hv))
  · intro z hz d r hzr
    obtain ⟨v, hv, rfl⟩ := List.mem_map.mp hz
    exact (hword v hv).end_not_word hzr
  · exact List.mem_map_of_mem hw

def lsToFile : Ptr := [⟨108, by decide⟩, ⟨115, by decide⟩, ⟨62, by decide⟩, ⟨102, by decide⟩]

def bufferOf (s : Ptr) : Buffer := fun i => (s[i]?.map Subtype.val).getD 0

theorem holds_bufferOf (s : Ptr) : Holds (bufferOf s) s := by
  refine ⟨?_, ?_⟩
  · intro i c h
    rw [bufferOf, h]
    rfl
  · rw [bufferOf, List.getElem?_eq_none (Nat.le_refl _)]
    rfl

theorem words_survive_lsToFile :
    parsecmd lsToFile = .ok (.redir (.exec [⟨lsToFile, lsToFile.drop 2⟩]) ⟨lsToFile.drop 3, []⟩ 0x201 1,
      [lsToFile.drop 2, []]) ∧
    CString (terminate lsToFile (.redir (.exec [⟨lsToFile, lsToFile.drop 2⟩]) ⟨lsToFile.drop 3, []⟩ 0x201 1)
      (bufferOf lsToFile)) 0 (lsToFile.take 2) := by
  refine ⟨by rfl, ?_⟩
  exact (words_survive lsToFile (bufferOf lsToFile) (holds_bufferOf lsToFile) _ _ (by rfl)
    ⟨lsToFile, lsToFile.drop 2⟩ (by simp [Cmd.spans])).2

end Xv6.Shell
