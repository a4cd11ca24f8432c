import Xv6.Shell.Tokens

namespace Xv6.Shell

open Lib Lib.Exec

inductive Dir
  | lt
  | gt
  | gtgt
  deriving DecidableEq

def Dir.token : Dir → Token
  | .lt => .lt
  | .gt => .gt
  | .gtgt => .gtgt

structure Redir where
  dir : Dir
  file : Span
  deriving DecidableEq

def Redir.tokens (r : Redir) : List Token := [r.dir.token, .word r.file]

def Redir.wrap (c : Cmd) (r : Redir) : Cmd :=
  match r.dir with
  | .lt => .redir c r.file oRdonly 0
  | .gt | .gtgt => .redir c r.file (oWronly ||| oCreate) 1

def wrap (rs : List Redir) (c : Cmd) : Cmd := rs.foldl Redir.wrap c

abbrev Arg := Span × List Redir

def argTokens (a : Arg) : List Token := .word a.1 :: a.2.flatMap Redir.tokens

def backs : Nat → Cmd → Cmd
  | 0, c => c
  | n + 1, c => backs n (.back c)

inductive Nonterminal
  | line
  | pipe
  | exec

inductive Derives : Nonterminal → List Token → Cmd → Prop
  | line {ts : List Token} {c : Cmd} (n : Nat) (h : Derives .pipe ts c) :
      Derives .line (ts ++ List.replicate n .amp) (backs n c)
  | list {ts us : List Token} {c d : Cmd} (n : Nat) (h : Derives .pipe ts c) (h' : Derives .line us d) :
      Derives .line (ts ++ (List.replicate n .amp ++ .semi :: us)) (.list (backs n c) d)
  | exec {ts : List Token} {c : Cmd} (h : Derives .exec ts c) : Derives .pipe ts c
  | pipe {ts us : List Token} {c d : Cmd} (h : Derives .exec ts c) (h' : Derives .pipe us d) :
      Derives .pipe (ts ++ .bar :: us) (.pipe c d)
  | block {ts : List Token} {c : Cmd} (rs : List Redir) (h : Derives .line ts c) :
      Derives .exec (.lparen :: (ts ++ .rparen :: rs.flatMap Redir.tokens)) (wrap rs c)
  | args (rs : List Redir) (as : List Arg) (h : as.length < maxargs) :
      Derives .exec (rs.flatMap Redir.tokens ++ as.flatMap argTokens)
        (wrap (rs ++ as.flatMap Prod.snd) (.exec (as.map Prod.fst)))

theorem push_wrap (rs : List Redir) (w : Span) (c : Cmd) : (wrap rs c).push w = wrap rs (c.push w) := by
  induction rs generalizing c with
  | nil => rfl
  | cons r rs ih =>
      have hr : (r.wrap c).push w = r.wrap (c.push w) := by
        obtain ⟨d, f⟩ := r
        cases d <;> rfl
      show (wrap rs (r.wrap c)).push w = wrap rs (r.wrap (c.push w))
      rw [ih, hr]

theorem wrap_append (rs rs' : List Redir) (c : Cmd) : wrap (rs ++ rs') c = wrap rs' (wrap rs c) := List.foldl_append

theorem starts_dir {ts : List Token} (h : starts [60, 62] ts = true) : ∃ d : Dir, ∃ us, ts = d.token :: us := by
  cases ts with
  | nil => cases h
  | cons t us =>
      cases t with
      | lt => exact ⟨.lt, us, rfl⟩
      | gt => exact ⟨.gt, us, rfl⟩
      | gtgt => exact ⟨.gtgt, us, rfl⟩
      | _ => exact absurd h (by simp [starts, Token.symbol])

def Token.Single (t : Token) : Prop := t.symbol = some t.code ∧ t ≠ .gt

theorem starts_single {t : Token} {ts : List Token} (ht : t.Single) (h : starts [t.code] ts = true) :
    ∃ us, ts = t :: us := by
  cases ts with
  | nil => cases h
  | cons u us =>
      obtain ⟨hsym, hgt⟩ := ht
      refine ⟨us, congrArg (· :: us) ?_⟩
      cases t <;> cases u <;> simp_all [starts, Token.symbol, Token.code]

theorem code_dir (d : Dir) (file : Span) (c : Cmd) (k : Cmd → ParseM Cmd) :
    (if d.token.code = 60 then k (.redir c file oRdonly 0)
      else if d.token.code = 62 then k (.redir c file (oWronly ||| oCreate) 1)
      else if d.token.code = 43 then k (.redir c file (oWronly ||| oCreate) 1)
      else k c) = k (Redir.wrap c ⟨d, file⟩) := by
  cases d <;> rfl

section Sound

variable {s : Ptr}

theorem parseredirs_wp (fuel : Nat) (c : Cmd) : wp (parseredirs fuel c)
    (fun c' s' => ∃ rs, c' = wrap rs c ∧ tokens s = rs.flatMap Redir.tokens ++ tokens s')
    (fun e => (tokens s).length < fuel → e ≠ .outOfFuel) s := by
  induction fuel generalizing c s with
  | zero => exact fun h => absurd h (Nat.not_lt_zero _)
  | succ fuel ih =>
      rw [parseredirs, wp_bind]
      apply wp_peek (by decide)
      intro s₁ h₁
      cases hd : starts [60, 62] (tokens s) with
      | false => exact ⟨[], rfl, h₁.symm⟩
      | true =>
          obtain ⟨d, us, hs⟩ := starts_dir hd
          rw [if_pos rfl, wp_bind]
          apply wp_gettoken_cons (h₁.trans hs)
          intro s₂ _ h₂ _
          rw [wp_bind]
          cases hu : us with
          | nil =>
              apply wp_gettoken_nil (h₂.trans hu)
              intro s₃ _ _
              exact fun _ => nofun
          | cons t us' =>
              apply wp_gettoken_cons (h₂.trans hu)
              intro s₃ file h₃ hfile
              cases t with
              | word w =>
                  obtain rfl := hfile w rfl
                  dsimp only
                  rw [if_neg (by simp [Token.code]), code_dir]
                  apply (ih (Redir.wrap c ⟨d, w⟩) (s := s₃)).mono
                  · rintro c' s' ⟨rs, rfl, hs'⟩
                    refine ⟨⟨d, w⟩ :: rs, rfl, ?_⟩
                    rw [hs, hu, ← h₃, hs']
                    rfl
                  · intro e he hlt
                    apply he
                    rw [hs, hu, ← h₃] at hlt
                    simp only [List.length_cons] at hlt
                    omega
              | _ => exact fun _ => nofun

theorem parseargs_wp (fuel argc : Nat) (rs : List Redir) (ws : List Span) (hargc : argc < maxargs) :
    wp (parseargs fuel argc (wrap rs (.exec ws)))
      (fun c s' => ∃ as : List Arg, argc + as.length < maxargs ∧
        c = wrap (rs ++ as.flatMap Prod.snd) (.exec (ws ++ as.map Prod.fst)) ∧
        tokens s = as.flatMap argTokens ++ tokens s')
      (fun e => (tokens s).length < fuel → e ≠ .outOfFuel) s := by
  induction fuel generalizing argc rs ws s with
  | zero => exact fun h => absurd h (Nat.not_lt_zero _)
  | succ fuel ih =>
      have hnone (s₁ : Ptr) (h : tokens s₁ = tokens s) : ∃ as : List Arg, argc + as.length < maxargs ∧
          wrap rs (.exec ws) = wrap (rs ++ as.flatMap Prod.snd) (.exec (ws ++ as.map Prod.fst)) ∧
          tokens s = as.flatMap argTokens ++ tokens s₁ := ⟨[], hargc, by simp, h.symm⟩
      rw [parseargs, wp_bind]
      apply wp_peek (by decide)
      intro s₁ h₁
      cases hstop : starts [124, 41, 38, 59] (tokens s) with
      | true => exact hnone s₁ h₁
      | false =>
          rw [if_neg (by simp), wp_bind]
          cases hs : tokens s with
          | nil =>
              apply wp_gettoken_nil (h₁.trans hs)
              intro s₂ w h₂
              have hstay := hnone s₂ (h₂.trans hs.symm)
              rwa [hs] at hstay
          | cons t us =>
              apply wp_gettoken_cons (h₁.trans hs)
              intro s₂ arg h₂ harg
              cases t with
              | word w =>
                  obtain rfl := harg w rfl
                  dsimp only
                  rw [if_neg (by simp [Token.code]), if_neg (by simp [Token.code])]
                  split
                  next => exact fun _ => nofun
                  next hroom =>
                    rw [push_wrap, Cmd.push, wp_bind]
                    apply (parseredirs_wp fuel _ (s := s₂)).mono
                    · rintro c s₃ ⟨rs', rfl, h₃⟩
                      rw [← wrap_append]
                      apply (ih (argc + 1) (rs ++ rs') (ws ++ [w]) (by omega) (s := s₃)).mono
                      · rintro c s₄ ⟨as, hlen, rfl, h₄⟩
                        refine ⟨(w, rs') :: as, by simp only [List.length_cons]; omega, by simp, ?_⟩
                        rw [← h₂, h₃, h₄]
                        simp [argTokens]
                      · intro e he hlt
                        apply he
                        rw [← h₂, h₃] at hlt
                        simp only [List.length_cons, List.length_append] at hlt
                        omega
                    · intro e he hlt
                      apply he
                      rw [← h₂] at hlt
                      simp only [List.length_cons] at hlt
                      omega
              | _ => exact fun _ => nofun

theorem parseback_wp (fuel : Nat) (c : Cmd) : wp (parseback fuel c)
    (fun c' s' => ∃ n, c' = backs n c ∧ tokens s = List.replicate n .amp ++ tokens s')
    (fun e => (tokens s).length < fuel → e ≠ .outOfFuel) s := by
  induction fuel generalizing c s with
  | zero => exact fun h => absurd h (Nat.not_lt_zero _)
  | succ fuel ih =>
      rw [parseback, wp_bind]
      apply wp_peek (by decide)
      intro s₁ h₁
      cases hd : starts [38] (tokens s) with
      | false => exact ⟨0, rfl, h₁.symm⟩
      | true =>
          obtain ⟨us, hs⟩ := starts_single (t := .amp) ⟨rfl, nofun⟩ hd
          rw [if_pos rfl, wp_bind]
          apply wp_gettoken_cons (h₁.trans hs)
          intro s₂ _ h₂ _
          apply (ih (.back c) (s := s₂)).mono
          · rintro c' s' ⟨n, rfl, hs'⟩
            refine ⟨n + 1, rfl, ?_⟩
            rw [hs, ← h₂, hs', List.replicate_succ]
            rfl
          · intro e he hlt
            apply he
            rw [hs, ← h₂] at hlt
            simp only [List.length_cons] at hlt
            omega

def parse : Nonterminal → Nat → ParseM Cmd
  | .line => parseline
  | .pipe => parsepipe
  | .exec => parseexec

def depth (n : Nat) : Nonterminal → Nat
  | .line => 4 * n + 5
  | .pipe => 4 * n + 4
  | .exec => 4 * n + 3

/-- Whatever a parser reads, it reads a derivation, and deep enough it never runs out of fuel. -/
def Reads (nt : Nonterminal) (fuel : Nat) : Prop :=
  ∀ s, wp (parse nt fuel) (fun c s' => ∃ ts, Derives nt ts c ∧ tokens s = ts ++ tokens s')
    (fun e => depth (tokens s).length nt ≤ fuel → e ≠ .outOfFuel) s

theorem reads_pipe {fuel : Nat} (he : Reads .exec fuel) (hp : Reads .pipe fuel) : Reads .pipe (fuel + 1) := by
  intro s
  rw [parse, parsepipe, wp_bind]
  apply (he s).mono
  · rintro c s₁ ⟨ts, hts, h₁⟩
    rw [wp_bind]
    apply wp_peek (by decide)
    intro s₂ h₂
    cases hbar : starts [124] (tokens s₁) with
    | false => exact ⟨ts, .exec hts, by rw [h₁, h₂]⟩
    | true =>
        obtain ⟨us, hus⟩ := starts_single (t := .bar) ⟨rfl, nofun⟩ hbar
        rw [if_pos rfl, wp_bind]
        apply wp_gettoken_cons (h₂.trans hus)
        intro s₃ _ h₃ _
        rw [wp_bind]
        apply (hp s₃).mono
        · rintro d s₄ ⟨us', hd, h₄⟩
          refine ⟨ts ++ .bar :: us', .pipe hts hd, ?_⟩
          rw [h₁, hus, ← h₃, h₄]
          simp
        · intro e he hdepth
          apply he
          rw [h₁, hus, ← h₃] at hdepth
          simp only [depth, List.length_append, List.length_cons] at hdepth ⊢
          omega
  · intro e he hdepth
    exact he (by simp only [depth] at hdepth ⊢; omega)

theorem reads_line {fuel : Nat} (hp : Reads .pipe fuel) (hl : Reads .line fuel) : Reads .line (fuel + 1) := by
  intro s
  rw [parse, parseline, wp_bind]
  apply (hp s).mono
  · rintro c s₁ ⟨ts, hts, h₁⟩
    rw [wp_bind]
    apply (parseback_wp fuel c (s := s₁)).mono
    · rintro _ s₂ ⟨n, rfl, h₂⟩
      rw [wp_bind]
      apply wp_peek (by decide)
      intro s₃ h₃
      cases hsemi : starts [59] (tokens s₂) with
      | false => exact ⟨ts ++ List.replicate n .amp, .line n hts, by rw [h₁, h₂, h₃, List.append_assoc]⟩
      | true =>
          obtain ⟨us, hus⟩ := starts_single (t := .semi) ⟨rfl, nofun⟩ hsemi
          rw [if_pos rfl, wp_bind]
          apply wp_gettoken_cons (h₃.trans hus)
          intro s₄ _ h₄ _
          rw [wp_bind]
          apply (hl s₄).mono
          · rintro d s₅ ⟨us', hd, h₅⟩
            refine ⟨_, .list n hts hd, ?_⟩
            rw [h₁, h₂, hus, ← h₄, h₅]
            simp
          · intro e he hdepth
            apply he
            rw [h₁, h₂, hus, ← h₄] at hdepth
            simp only [depth, List.length_append, List.length_cons] at hdepth ⊢
            omega
    · intro e he hdepth
      apply he
      rw [h₁] at hdepth
      simp only [depth, List.length_append] at hdepth
      omega
  · intro e he hdepth
    exact he (by simp only [depth] at hdepth ⊢; omega)

theorem parseblock_wp {fuel : Nat} {s : Ptr} {us : List Token} (hl : Reads .line fuel)
    (h : tokens s = .lparen :: us) :
    wp (parseblock (fuel + 1)) (fun c s' => ∃ ts, Derives .exec ts c ∧ tokens s = ts ++ tokens s')
      (fun e => 4 * (tokens s).length + 2 ≤ fuel + 1 → e ≠ .outOfFuel) s := by
  rw [parseblock, wp_bind]
  apply wp_peek (by decide)
  intro s₁ h₁
  rw [h] at h₁
  rw [h, if_pos (show starts [40] (.lparen :: us) = true from rfl), wp_bind]
  apply wp_gettoken_cons h₁
  intro s₂ _ h₂ _
  rw [wp_bind]
  apply (hl s₂).mono
  · rintro c s₃ ⟨ts, hts, h₃⟩
    rw [wp_bind]
    apply wp_peek (by decide)
    intro s₄ h₄
    cases hclose : starts [41] (tokens s₃) with
    | false => exact fun _ => nofun
    | true =>
        obtain ⟨vs, hvs⟩ := starts_single (t := .rparen) ⟨rfl, nofun⟩ hclose
        rw [if_pos rfl, wp_bind]
        apply wp_gettoken_cons (h₄.trans hvs)
        intro s₅ _ h₅ _
        apply (parseredirs_wp fuel c (s := s₅)).mono
        · rintro _ s₆ ⟨rs, rfl, h₆⟩
          refine ⟨_, .block rs hts, ?_⟩
          rw [← h₂, h₃, hvs, ← h₅, h₆]
          simp
        · intro e he hdepth
          apply he
          rw [← h₂, h₃, hvs, ← h₅] at hdepth
          simp only [List.length_append, List.length_cons] at hdepth
          omega
  · intro e he hdepth
    apply he
    rw [← h₂] at hdepth
    simp only [depth, List.length_cons] at hdepth ⊢
    omega

theorem reads_exec {fuel : Nat} (hl : ∀ n < fuel, Reads .line n) : Reads .exec (fuel + 1) := by
  intro s
  rw [parse, parseexec, wp_bind]
  apply wp_peek (by decide)
  intro s₁ h₁
  rw [← h₁]
  cases hopen : starts [40] (tokens s₁) with
  | true =>
      obtain ⟨us, hus⟩ := starts_single (t := .lparen) ⟨rfl, nofun⟩ hopen
      rw [if_pos rfl]
      cases fuel with
      | zero =>
          intro hdepth
          simp [depth] at hdepth
      | succ fuel =>
          apply (parseblock_wp (hl fuel (Nat.lt_succ_self _)) hus).mono
          · exact fun c s' h => h
          · intro e he hdepth
            exact he (by simp only [depth] at hdepth; omega)
  | false =>
      rw [if_neg (by simp), wp_bind]
      apply (parseredirs_wp fuel (.exec []) (s := s₁)).mono
      · rintro _ s₂ ⟨rs, rfl, h₂⟩
        apply (parseargs_wp fuel 0 rs [] (by decide) (s := s₂)).mono
        · rintro _ s₃ ⟨as, hlen, rfl, h₃⟩
          refine ⟨_, .args rs as (by omega), ?_⟩
          rw [h₂, h₃]
          simp
        · intro e he hdepth
          apply he
          rw [h₂] at hdepth
          simp only [depth, List.length_append] at hdepth
          omega
      · intro e he hdepth
        exact he (by simp only [depth] at hdepth; omega)

theorem reads (nt : Nonterminal) (fuel : Nat) : Reads nt fuel := by
  induction fuel using Nat.strongRecOn generalizing nt with
  | ind fuel ih =>
      cases fuel with
      | zero =>
          intro s
          cases nt <;> exact fun h => absurd h (by simp [depth])
      | succ fuel =>
          have hlt := Nat.lt_succ_self fuel
          cases nt with
          | line => exact reads_line (ih fuel hlt .pipe) (ih fuel hlt .line)
          | pipe => exact reads_pipe (ih fuel hlt .exec) (ih fuel hlt .pipe)
          | exec => exact reads_exec fun n hn => ih n (Nat.lt_succ_of_lt hn) .line

end Sound

end Xv6.Shell
