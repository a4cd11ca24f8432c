import Xv6.Shell.Grammar

namespace Xv6.Shell

open Lib Lib.Exec

section Complete

variable {s : Ptr} {rest : List Token}

def Yields (m : ParseM Cmd) (s : Ptr) (c : Cmd) (rest : List Token) : Prop :=
  wp m (fun c' s' => c' = c ∧ tokens s' = rest) (fun _ => False) s

theorem yields_pure (c : Cmd) (h : tokens s = rest) : Yields (pure c) s c rest := ⟨rfl, h⟩

theorem Yields.bind {m : ParseM Cmd} {f : Cmd → ParseM Cmd} {c d : Cmd} {rest' : List Token} (h : Yields m s c rest)
    (h' : ∀ s', tokens s' = rest → Yields (f c) s' d rest') : Yields (m >>= f) s d rest' := by
  apply wp.bind h
  rintro _ s' ⟨rfl, hs'⟩
  exact h' s' hs'

theorem yields_peek (b : Bool) {toks : List UInt8} {f : Bool → ParseM Cmd} {c : Cmd} {ts : List Token}
    (h : toks ⊆ symbols) (hs : tokens s = ts) (hb : starts toks ts = b)
    (h' : ∀ s', tokens s' = ts → Yields (f b) s' c rest) : Yields (peek toks >>= f) s c rest := by
  subst hs hb
  apply wp_bind.mpr
  exact wp_peek h h'

theorem yields_gettoken {f : UInt8 × Span → ParseM Cmd} {c : Cmd} {t : Token} {ts : List Token}
    (hs : tokens s = t :: ts)
    (h' : ∀ s' w, tokens s' = ts → (∀ v, t = .word v → v = w) → Yields (f (t.code, w)) s' c rest) :
    Yields (gettoken >>= f) s c rest :=
  wp_bind.mpr (wp_gettoken_cons hs h')

def Stops (toks : List UInt8) (rest : List Token) : Prop := rest = [] ∨ starts toks rest = true

theorem Stops.starts_false {toks toks' : List UInt8} (h : Stops toks rest) (hd : toks.all (· ∉ toks') = true) :
    starts toks' rest = false := by
  rcases h with rfl | h
  · rfl
  · cases rest with
    | nil => rfl
    | cons t ts =>
        rw [starts] at h ⊢
        cases ht : t.symbol with
        | none => rfl
        | some c =>
            rw [ht, Option.any_some, List.contains_iff_mem] at h
            rw [Option.any_some, ← Bool.not_eq_true, List.contains_iff_mem]
            exact of_decide_eq_true (List.all_eq_true.mp hd c h)

theorem Stops.mono {toks toks' : List UInt8} (h : Stops toks rest) (hsub : toks ⊆ toks') : Stops toks' rest := by
  rcases h with rfl | h
  · exact .inl rfl
  · cases rest with
    | nil => exact .inl rfl
    | cons t ts =>
        right
        rw [starts] at h ⊢
        cases ht : t.symbol with
        | none =>
            rw [ht] at h
            cases h
        | some c =>
            rw [ht, Option.any_some, List.contains_iff_mem] at h
            rw [Option.any_some, List.contains_iff_mem]
            exact hsub h

theorem starts_dir_token (d : Dir) (ts : List Token) : starts [60, 62] (d.token :: ts) = true := by
  cases d <;> rfl

theorem parseredirs_yields (fuel : Nat) (c : Cmd) (rs : List Redir) (h : tokens s = rs.flatMap Redir.tokens ++ rest)
    (hrest : starts [60, 62] rest = false) (hfuel : (tokens s).length < fuel) :
    Yields (parseredirs fuel c) s (wrap rs c) rest := by
  induction rs generalizing fuel c s with
  | nil =>
      obtain ⟨fuel, rfl⟩ := Nat.exists_eq_succ_of_ne_zero (Nat.ne_zero_of_lt hfuel)
      rw [parseredirs]
      apply yields_peek false (by decide) h hrest
      intro s₁ h₁
      exact yields_pure c h₁
  | cons r rs ih =>
      obtain ⟨fuel, rfl⟩ := Nat.exists_eq_succ_of_ne_zero (Nat.ne_zero_of_lt hfuel)
      obtain ⟨d, file⟩ := r
      have hs : tokens s = d.token :: .word file :: (rs.flatMap Redir.tokens ++ rest) := h
      rw [parseredirs]
      apply yields_peek true (by decide) hs (starts_dir_token d _)
      intro s₁ h₁
      rw [if_pos rfl]
      apply yields_gettoken h₁
      intro s₂ _ h₂ _
      apply yields_gettoken h₂
      intro s₃ w h₃ hw
      obtain rfl := hw file rfl
      dsimp only
      rw [if_neg (by simp [Token.code]), code_dir]
      rw [hs] at hfuel
      exact ih fuel _ h₃ (by rw [h₃]; simp only [List.length_cons] at hfuel; omega)

theorem parseargs_yields (fuel argc : Nat) (rs : List Redir) (ws : List Span) (as : List Arg)
    (h : tokens s = as.flatMap argTokens ++ rest) (hrest : Stops [124, 41, 38, 59] rest)
    (hargs : argc + as.length < maxargs) (hfuel : (tokens s).length < fuel) :
    Yields (parseargs fuel argc (wrap rs (.exec ws))) s
      (wrap (rs ++ as.flatMap Prod.snd) (.exec (ws ++ as.map Prod.fst))) rest := by
  induction as generalizing fuel argc rs ws s with
  | nil =>
      obtain ⟨fuel, rfl⟩ := Nat.exists_eq_succ_of_ne_zero (Nat.ne_zero_of_lt hfuel)
      have hs : tokens s = rest := h
      simp only [List.flatMap_nil, List.map_nil, List.append_nil]
      rw [parseargs]
      rcases hrest with rfl | hstop
      · apply yields_peek false (by decide) hs rfl
        intro s₁ h₁
        apply wp_bind.mpr
        apply wp_gettoken_nil h₁
        intro s₂ _ h₂
        exact yields_pure _ h₂
      · apply yields_peek true (by decide) hs hstop
        intro s₁ h₁
        exact yields_pure _ h₁
  | cons a as ih =>
      obtain ⟨fuel, rfl⟩ := Nat.exists_eq_succ_of_ne_zero (Nat.ne_zero_of_lt hfuel)
      obtain ⟨w, rs'⟩ := a
      have hs : tokens s = .word w :: (rs'.flatMap Redir.tokens ++ (as.flatMap argTokens ++ rest)) := by
        rw [h]
        simp [argTokens]
      have hnext : starts [60, 62] (as.flatMap argTokens ++ rest) = false := by
        cases as with
        | nil => exact hrest.starts_false (by decide)
        | cons b as => rfl
      rw [hs] at hfuel
      simp only [List.length_cons, List.length_append] at hfuel hargs
      rw [parseargs]
      apply yields_peek false (by decide) hs rfl
      intro s₁ h₁
      rw [if_neg (by simp)]
      apply yields_gettoken h₁
      intro s₂ v h₂ hv
      obtain rfl := hv w rfl
      dsimp only
      rw [if_neg (by simp [Token.code]), if_neg (by simp [Token.code]), if_neg (by omega), push_wrap, Cmd.push]
      apply (parseredirs_yields fuel _ rs' h₂ hnext (by rw [h₂]; simp only [List.length_append]; omega)).bind
      intro s₃ h₃
      rw [← wrap_append]
      have hrec := ih fuel (argc + 1) (rs ++ rs') (ws ++ [w]) h₃ (by omega)
        (by rw [h₃]; simp only [List.length_append]; omega)
      simpa using hrec

theorem parseback_yields (fuel n : Nat) (c : Cmd) (h : tokens s = List.replicate n .amp ++ rest)
    (hrest : starts [38] rest = false) (hfuel : n < fuel) : Yields (parseback fuel c) s (backs n c) rest := by
  induction n generalizing fuel c s with
  | zero =>
      obtain ⟨fuel, rfl⟩ := Nat.exists_eq_succ_of_ne_zero (Nat.ne_zero_of_lt hfuel)
      have hs : tokens s = rest := h
      rw [parseback]
      apply yields_peek false (by decide) hs hrest
      intro s₁ h₁
      exact yields_pure c h₁
  | succ n ih =>
      obtain ⟨fuel, rfl⟩ := Nat.exists_eq_succ_of_ne_zero (Nat.ne_zero_of_lt hfuel)
      have hs : tokens s = .amp :: (List.replicate n .amp ++ rest) :=
        by rw [h, List.replicate_succ, List.cons_append]
      rw [parseback]
      apply yields_peek true (by decide) hs rfl
      intro s₁ h₁
      rw [if_pos rfl]
      apply yields_gettoken h₁
      intro s₂ _ h₂ _
      exact ih fuel (.back c) h₂ (Nat.lt_of_succ_lt_succ hfuel)

def follow : Nonterminal → List UInt8
  | .line => [41]
  | .pipe => [41, 38, 59]
  | .exec => [124, 41, 38, 59]

def Finds (nt : Nonterminal) (ts : List Token) (c : Cmd) : Prop :=
  ∀ fuel s rest, tokens s = ts ++ rest → Stops (follow nt) rest → depth (tokens s).length nt ≤ fuel →
    Yields (parse nt fuel) s c rest

section Cases

variable {ts us : List Token} {c d : Cmd}

theorem finds_line (n : Nat) (hp : Finds .pipe ts c) : Finds .line (ts ++ List.replicate n .amp) (backs n c) := by
  intro fuel s rest hs hrest hfuel
  obtain ⟨fuel, rfl⟩ := Nat.exists_eq_succ_of_ne_zero (Nat.ne_zero_of_lt hfuel)
  rw [List.append_assoc] at hs
  rw [depth, hs] at hfuel
  simp only [List.length_append, List.length_replicate] at hfuel
  have hnext : Stops (follow .pipe) (List.replicate n .amp ++ rest) := by
    cases n with
    | zero => exact hrest.mono (by decide)
    | succ n => exact .inr rfl
  have hdepth : depth (tokens s).length .pipe ≤ fuel := by
    rw [depth, hs]
    simp only [List.length_append, List.length_replicate]
    omega
  rw [parse, parseline]
  apply (hp fuel s _ hs hnext hdepth).bind
  intro s₁ h₁
  apply (parseback_yields fuel n c h₁ (hrest.starts_false (by decide)) (by omega)).bind
  intro s₂ h₂
  apply yields_peek false (by decide) h₂ (hrest.starts_false (by decide))
  intro s₃ h₃
  exact yields_pure _ h₃

theorem finds_list (n : Nat) (hp : Finds .pipe ts c) (hl : Finds .line us d) :
    Finds .line (ts ++ (List.replicate n .amp ++ .semi :: us)) (.list (backs n c) d) := by
  intro fuel s rest hs hrest hfuel
  obtain ⟨fuel, rfl⟩ := Nat.exists_eq_succ_of_ne_zero (Nat.ne_zero_of_lt hfuel)
  rw [List.append_assoc, List.append_assoc, List.cons_append] at hs
  rw [depth, hs] at hfuel
  simp only [List.length_append, List.length_replicate, List.length_cons] at hfuel
  have hnext : Stops (follow .pipe) (List.replicate n .amp ++ .semi :: (us ++ rest)) := by
    cases n with
    | zero => exact .inr rfl
    | succ n => exact .inr rfl
  have hdepth : depth (tokens s).length .pipe ≤ fuel := by
    rw [depth, hs]
    simp only [List.length_append, List.length_replicate, List.length_cons]
    omega
  rw [parse, parseline]
  apply (hp fuel s _ hs hnext hdepth).bind
  intro s₁ h₁
  apply (parseback_yields fuel n c h₁ rfl (by omega)).bind
  intro s₂ h₂
  apply yields_peek true (by decide) h₂ rfl
  intro s₃ h₃
  rw [if_pos rfl]
  apply yields_gettoken h₃
  intro s₄ _ h₄ _
  apply (hl fuel s₄ rest h₄ hrest (by rw [depth, h₄, List.length_append]; omega)).bind
  intro s₅ h₅
  exact yields_pure _ h₅

theorem finds_exec (he : Finds .exec ts c) : Finds .pipe ts c := by
  intro fuel s rest hs hrest hfuel
  obtain ⟨fuel, rfl⟩ := Nat.exists_eq_succ_of_ne_zero (Nat.ne_zero_of_lt hfuel)
  rw [depth] at hfuel
  rw [parse, parsepipe]
  apply (he fuel s rest hs (hrest.mono (by decide)) (by rw [depth]; omega)).bind
  intro s₁ h₁
  apply yields_peek false (by decide) h₁ (hrest.starts_false (by decide))
  intro s₂ h₂
  exact yields_pure _ h₂

theorem finds_pipe (he : Finds .exec ts c) (hp : Finds .pipe us d) :
    Finds .pipe (ts ++ .bar :: us) (.pipe c d) := by
  intro fuel s rest hs hrest hfuel
  obtain ⟨fuel, rfl⟩ := Nat.exists_eq_succ_of_ne_zero (Nat.ne_zero_of_lt hfuel)
  rw [List.append_assoc, List.cons_append] at hs
  rw [depth] at hfuel
  rw [parse, parsepipe]
  apply (he fuel s _ hs (.inr rfl) (by rw [depth]; omega)).bind
  intro s₁ h₁
  apply yields_peek true (by decide) h₁ rfl
  intro s₂ h₂
  rw [if_pos rfl]
  apply yields_gettoken h₂
  intro s₃ _ h₃ _
  rw [hs] at hfuel
  simp only [List.length_append, List.length_cons] at hfuel
  apply (hp fuel s₃ rest h₃ hrest (by rw [depth, h₃, List.length_append]; omega)).bind
  intro s₄ h₄
  exact yields_pure _ h₄

theorem finds_block (rs : List Redir) (hl : Finds .line ts c) :
    Finds .exec (.lparen :: (ts ++ .rparen :: rs.flatMap Redir.tokens)) (wrap rs c) := by
  intro fuel s rest hs hrest hfuel
  rw [List.cons_append, List.append_assoc, List.cons_append] at hs
  rw [depth, hs] at hfuel
  simp only [List.length_append, List.length_cons] at hfuel
  obtain ⟨fuel, rfl⟩ : ∃ n, fuel = n + 2 := ⟨fuel - 2, by omega⟩
  rw [parse, parseexec]
  apply yields_peek true (by decide) hs rfl
  intro s₁ h₁
  rw [if_pos rfl, parseblock]
  apply yields_peek true (by decide) h₁ rfl
  intro s₂ h₂
  rw [if_pos rfl]
  apply yields_gettoken h₂
  intro s₃ _ h₃ _
  have hdepth : depth (tokens s₃).length .line ≤ fuel := by
    rw [depth, h₃]
    simp only [List.length_append, List.length_cons]
    omega
  apply (hl fuel s₃ _ h₃ (.inr rfl) hdepth).bind
  intro s₄ h₄
  apply yields_peek true (by decide) h₄ rfl
  intro s₅ h₅
  rw [if_pos rfl]
  apply yields_gettoken h₅
  intro s₆ _ h₆ _
  exact parseredirs_yields fuel c rs h₆ (hrest.starts_false (by decide))
    (by rw [h₆, List.length_append]; omega)

theorem finds_args (rs : List Redir) (as : List Arg) (h : as.length < maxargs) :
    Finds .exec (rs.flatMap Redir.tokens ++ as.flatMap argTokens)
      (wrap (rs ++ as.flatMap Prod.snd) (.exec (as.map Prod.fst))) := by
  intro fuel s rest hs hrest hfuel
  obtain ⟨fuel, rfl⟩ := Nat.exists_eq_succ_of_ne_zero (Nat.ne_zero_of_lt hfuel)
  rw [List.append_assoc] at hs
  rw [depth] at hfuel
  have hnext : starts [60, 62] (as.flatMap argTokens ++ rest) = false := by
    cases as with
    | nil => exact hrest.starts_false (by decide)
    | cons b as => rfl
  have hopen : starts [40] (tokens s) = false := by
    rw [hs]
    cases rs with
    | nil =>
        cases as with
        | nil => exact hrest.starts_false (by decide)
        | cons b as => rfl
    | cons r rs =>
        obtain ⟨d, f⟩ := r
        cases d <;> rfl
  rw [parse, parseexec]
  apply yields_peek false (by decide) rfl hopen
  intro s₁ h₁
  rw [if_neg (by simp)]
  rw [← h₁] at hs hfuel
  apply (parseredirs_yields fuel (.exec []) rs hs hnext (by omega)).bind
  intro s₂ h₂
  apply parseargs_yields fuel 0 rs [] as h₂ hrest (by omega)
  rw [hs, List.length_append] at hfuel
  rw [h₂]
  omega

end Cases

theorem derives_finds {nt : Nonterminal} {ts : List Token} {c : Cmd} (h : Derives nt ts c) : Finds nt ts c := by
  induction h with
  | line n h ih => exact finds_line n ih
  | list n h h' ih ih' => exact finds_list n ih ih'
  | exec h ih => exact finds_exec ih
  | pipe h h' ih ih' => exact finds_pipe ih ih'
  | block rs h ih => exact finds_block rs ih
  | args rs as h => exact finds_args rs as h

end Complete

section Words

def Span.Word (w : Span) : Prop := ∃ c r, w.q = c :: r ∧ isWord c = true ∧ w.eq = r.dropWhile isWord

theorem word_of_tokens (s : Ptr) (w : Span) (h : .word w ∈ tokens s) : w.Word := by
  induction s using tokens.induct with
  | case1 => simp [tokens] at h
  | case11 c s hc h1 h2 h3 h4 h5 h6 h7 ih =>
      rw [tokens, if_neg hc, if_neg h1, if_neg h2, if_neg h3, if_neg h4, if_neg h5, if_neg h6, if_neg h7] at h
      rcases List.mem_cons.mp h with hw | hw
      · cases hw
        refine ⟨c, s, rfl, ?_, rfl⟩
        simp_all [isWord, isSpace, symbols]
      · exact ih hw
  | _ =>
      rename_i ih
      rw [tokens] at h
      simp_all

def Cmd.spans : Cmd → List Span
  | .exec argv => argv
  | .redir cmd file _ _ => cmd.spans ++ [file]
  | .pipe left right => left.spans ++ right.spans
  | .list left right => left.spans ++ right.spans
  | .back cmd => cmd.spans

theorem nulterminate_eq (c : Cmd) : nulterminate c = c.spans.map Span.eq := by
  induction c with
  | exec argv => rfl
  | redir cmd file mode fd ih => simp [nulterminate, Cmd.spans, ih]
  | pipe left right ihl ihr => simp [nulterminate, Cmd.spans, ihl, ihr]
  | list left right ihl ihr => simp [nulterminate, Cmd.spans, ihl, ihr]
  | back cmd ih => simp [nulterminate, Cmd.spans, ih]

theorem spans_wrap (rs : List Redir) (c : Cmd) : (wrap rs c).spans = c.spans ++ rs.map Redir.file := by
  induction rs generalizing c with
  | nil => simp [wrap]
  | cons r rs ih =>
      have hr : (Redir.wrap c r).spans = c.spans ++ [r.file] := by
        obtain ⟨d, f⟩ := r
        cases d <;> rfl
      rw [show wrap (r :: rs) c = wrap rs (Redir.wrap c r) from rfl, ih, hr]
      simp

theorem spans_backs (n : Nat) (c : Cmd) : (backs n c).spans = c.spans := by
  induction n generalizing c with
  | zero => rfl
  | succ n ih => exact ih (.back c)

theorem mem_redirs {rs : List Redir} {w : Span} (h : w ∈ rs.map Redir.file) :
    .word w ∈ rs.flatMap Redir.tokens := by
  obtain ⟨r, hr, rfl⟩ := List.mem_map.mp h
  exact List.mem_flatMap.mpr ⟨r, hr, by simp [Redir.tokens]⟩

theorem mem_args {as : List Arg} {w : Span} (h : w ∈ as.map Prod.fst ∨ w ∈ (as.flatMap Prod.snd).map Redir.file) :
    .word w ∈ as.flatMap argTokens := by
  rcases h with h | h
  · obtain ⟨a, ha, rfl⟩ := List.mem_map.mp h
    exact List.mem_flatMap.mpr ⟨a, ha, List.mem_cons_self⟩
  · obtain ⟨r, hr, rfl⟩ := List.mem_map.mp h
    obtain ⟨a, ha, hra⟩ := List.mem_flatMap.mp hr
    exact List.mem_flatMap.mpr ⟨a, ha, List.mem_cons_of_mem _ (mem_redirs (List.mem_map_of_mem hra))⟩

theorem Derives.words {nt : Nonterminal} {ts : List Token} {c : Cmd} (h : Derives nt ts c) {w : Span}
    (hw : w ∈ c.spans) : .word w ∈ ts := by
  induction h with
  | line n h ih =>
      rw [spans_backs] at hw
      exact List.mem_append_left _ (ih hw)
  | list n h h' ih ih' =>
      simp only [Cmd.spans, spans_backs, List.mem_append] at hw
      simp only [List.mem_append, List.mem_cons]
      exact hw.elim (fun hw => .inl (ih hw)) fun hw => .inr (.inr (.inr (ih' hw)))
  | exec h ih => exact ih hw
  | pipe h h' ih ih' =>
      simp only [Cmd.spans, List.mem_append] at hw
      simp only [List.mem_append, List.mem_cons]
      exact hw.elim (fun hw => .inl (ih hw)) fun hw => .inr (.inr (ih' hw))
  | block rs h ih =>
      rw [spans_wrap, List.mem_append] at hw
      simp only [List.mem_append, List.mem_cons]
      exact .inr (hw.elim (fun hw => .inl (ih hw)) fun hw => .inr (.inr (mem_redirs hw)))
  | args rs as h =>
      rw [spans_wrap, Cmd.spans, List.map_append, List.mem_append, List.mem_append] at hw
      rw [List.mem_append]
      rcases hw with hw | hw | hw
      · exact .inr (mem_args (.inl hw))
      · exact .inl (mem_redirs hw)
      · exact .inr (mem_args (.inr hw))

def Span.text (w : Span) : Ptr := w.q.takeWhile isWord

theorem cstring_word {nuls : List Ptr} (hnuls : ∀ z ∈ nuls, ∀ c r, z = c :: r → isWord c = false) (s : Ptr)
    (h : s.dropWhile isWord ∈ nuls) : cstring nuls s = s.takeWhile isWord := by
  induction s with
  | nil => rfl
  | cons c s ih =>
      by_cases hc : isWord c = true
      · rw [List.dropWhile_cons_of_pos hc] at h
        have hno : c :: s ∉ nuls := fun hm => by
          rw [hnuls _ hm c s rfl] at hc
          cases hc
        rw [cstring, if_neg hno, List.takeWhile_cons_of_pos hc, ih h]
      · rw [List.dropWhile_cons_of_neg hc] at h
        rw [cstring, if_pos h, List.takeWhile_cons_of_neg hc]

theorem Span.Word.dropWhile_eq {w : Span} (h : w.Word) : w.q.dropWhile isWord = w.eq := by
  obtain ⟨d, r, hq, hd, heq⟩ := h
  rw [hq, List.dropWhile_cons_of_pos hd, heq]

theorem Span.Word.end_not_word {w : Span} (h : w.Word) {c : Byte} {r : Ptr} (he : w.eq = c :: r) :
    isWord c = false := by
  obtain ⟨d, r', -, -, heq⟩ := h
  have hhead := List.head?_dropWhile_not isWord r'
  rw [← heq, he] at hhead
  simpa using hhead

end Words

theorem tokens_eq_nil (s : Ptr) : tokens s = [] ↔ skip s = [] := by
  rw [← tokens_skip]
  constructor
  · intro h
    cases hs : skip s with
    | nil => rfl
    | cons c r =>
        obtain ⟨t, ht, -⟩ := scan_cons (r := r) (skip_cons hs)
        rw [hs, ht] at h
        cases h
  · intro h
    rw [h, tokens]

theorem parsecmd_sound {s : Ptr} {c : Cmd} {nuls : List Ptr} (h : parsecmd s = .ok (c, nuls)) :
    Derives .line (tokens s) c ∧ nuls = nulterminate c := by
  rw [parsecmd] at h
  split at h
  next cmd s' hrun =>
    split at h
    next hend =>
      cases h
      obtain ⟨ts, hts, hs⟩ := (wp_iff.mp (reads .line (4 * s.length + 5) s)).1 _ _ hrun
      rw [(tokens_eq_nil s').mpr hend, List.append_nil] at hs
      exact ⟨hs ▸ hts, rfl⟩
    next => cases h
  next => cases h

/-- `parsecmd` ends on every line, and it returns a command if and only if the grammar derives the command from the
tokens of the line. The words of the command are then strings. -/
theorem parsecmd_grammar (s : Ptr) : parsecmd s ≠ .error .outOfFuel ∧
    (∀ c, (∃ nuls, parsecmd s = .ok (c, nuls)) ↔ Derives .line (tokens s) c) ∧
    ∀ c nuls, parsecmd s = .ok (c, nuls) → ∀ w ∈ c.spans, cstring nuls w.q = w.text := by
  have hlen := length_tokens_le s
  refine ⟨?_, ?_, ?_⟩
  · rw [parsecmd]
    split
    next =>
      split
      next => simp
      next => simp
    next e hrun =>
      rintro ⟨⟩
      exact (wp_iff.mp (reads .line (4 * s.length + 5) s)).2 _ hrun (by rw [depth]; omega) rfl
  · intro c
    refine ⟨fun h => (parsecmd_sound h.choose_spec).1, ?_⟩
    intro h
    have hrun := derives_finds h (4 * s.length + 5) s [] (List.append_nil _).symm (.inl rfl) (by rw [depth]; omega)
    rw [Yields, wp] at hrun
    rw [parsecmd]
    split at hrun
    next cmd s' heq =>
      obtain ⟨rfl, hs'⟩ := hrun
      rw [show parseline (4 * s.length + 5) s = _ from heq]
      exact ⟨_, if_pos ((tokens_eq_nil s').mp hs')⟩
    next => cases hrun
  · intro c nuls h w hw
    obtain ⟨hd, rfl⟩ := parsecmd_sound h
    have hword (v : Span) (hv : v ∈ c.spans) : v.Word := word_of_tokens s v (hd.words hv)
    apply cstring_word
    · intro z hz d r hzr
      rw [nulterminate_eq] at hz
      obtain ⟨v, hv, rfl⟩ := List.mem_map.mp hz
      exact (hword v hv).end_not_word hzr
    · rw [(hword w hw).dropWhile_eq, nulterminate_eq]
      exact List.mem_map_of_mem hw

end Xv6.Shell
