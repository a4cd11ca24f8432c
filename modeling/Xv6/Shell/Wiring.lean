import Xv6.Param
import Xv6.Shell.Accept

namespace Xv6.Shell

inductive Side
  | left
  | right
  | sub
  deriving DecidableEq

abbrev Path := List Side

/-- What a descriptor is for: a file that was open before, the file of a redirection or an end of the pipe of a
node. -/
inductive Obj
  | given (f : Nat)
  | file (node : Path)
  | readEnd (node : Path)
  | writeEnd (node : Path)
  deriving DecidableEq

abbrev Fds := Fin nofile → Option Obj

namespace Fds

def fdalloc (fds : Fds) (f : Obj) : Option (Fin nofile × Fds) :=
  ((List.finRange nofile).find? fun fd => (fds fd).isNone).map fun fd => (fd, Function.update fds fd (some f))

def close (fds : Fds) (fd : Nat) : Fds := fun i => if i.val = fd then none else fds i

def dup (fds : Fds) (fd : Fin nofile) : Fds :=
  match fds fd with
  | none => fds
  | some f =>
      match fds.fdalloc f with
      | none => fds
      | some (_, fds) => fds

def pipe (fds : Fds) (node : Path) : Option (Fin nofile × Fin nofile × Fds) :=
  match fds.fdalloc (.readEnd node) with
  | none => none
  | some (p0, fds) =>
      match fds.fdalloc (.writeEnd node) with
      | none => none
      | some (p1, fds) => some (p0, p1, fds)

end Fds

/-- Whether the system calls that a node makes succeed, as far as that does not depend on the descriptors. -/
structure Calls where
  openOk : Path → Bool
  pipeOk : Path → Bool
  forkOk : Path → Side → Bool

/-- The places where the descriptors of a process are looked at: when it enters `runcmd`, when it waits for its
children, and when it calls `exec`. -/
inductive Point
  | enter
  | wait
  | exec
  deriving DecidableEq

structure Event where
  point : Point
  node : Path
  fds : Fds

/-- `runcmd`, in a process with the descriptors `fds`, and in all the processes that it forks. Descriptors are not
shared, so the order in which the processes run does not matter. -/
def runcmd (sys : Calls) (node : Path) (fds : Fds) : Cmd → List Event
  | .exec argv => ⟨.enter, node, fds⟩ :: if argv = [] then [] else [⟨.exec, node, fds⟩]
  | .redir cmd _ _ fd =>
      ⟨.enter, node, fds⟩ ::
        if sys.openOk node then
          match (fds.close fd).fdalloc (.file node) with
          | none => []
          | some (_, fds) => runcmd sys (node ++ [.sub]) fds cmd
        else []
  | .list left right =>
      ⟨.enter, node, fds⟩ ::
        if sys.forkOk node .left then
          runcmd sys (node ++ [.left]) fds left ++ ⟨.wait, node, fds⟩ :: runcmd sys (node ++ [.right]) fds right
        else []
  | .pipe left right =>
      ⟨.enter, node, fds⟩ ::
        if sys.pipeOk node then
          match fds.pipe node with
          | none => []
          | some (p0, p1, fds) =>
              if sys.forkOk node .left then
                runcmd sys (node ++ [.left]) ((((fds.close 1).dup p1).close p0).close p1) left ++
                  if sys.forkOk node .right then
                    runcmd sys (node ++ [.right]) ((((fds.close 0).dup p0).close p0).close p1) right ++
                      [⟨.wait, node, (fds.close p0).close p1⟩]
                  else []
              else []
        else []
  | .back cmd =>
      ⟨.enter, node, fds⟩ :: if sys.forkOk node .sub then runcmd sys (node ++ [.sub]) fds cmd else []

def std (f0 f1 f2 : Obj) : Fds :=
  fun i => if i.val = 0 then f0 else if i.val = 1 then f1 else if i.val = 2 then f2 else none

section Std

variable (f0 f1 f2 : Obj) (node : Path)

theorem redirect_input : ((std f0 f1 f2).close 0).fdalloc (.file node) = some (0, std (.file node) f1 f2) := by
  refine congrArg some (Prod.ext rfl ?_)
  funext i
  fin_cases i <;> rfl

theorem redirect_output : ((std f0 f1 f2).close 1).fdalloc (.file node) = some (1, std f0 (.file node) f2) := by
  refine congrArg some (Prod.ext rfl ?_)
  funext i
  fin_cases i <;> rfl

def withPipe : Fds := Function.update (Function.update (std f0 f1 f2) 3 (some (.readEnd node))) 4
    (some (.writeEnd node))

theorem pipe_std : (std f0 f1 f2).pipe node = some (3, 4, withPipe f0 f1 f2 node) := rfl

theorem left_std : ((((withPipe f0 f1 f2 node).close 1).dup 4).close 3).close 4 = std f0 (.writeEnd node) f2 := by
  funext i
  fin_cases i <;> rfl

theorem right_std : ((((withPipe f0 f1 f2 node).close 0).dup 3).close 3).close 4 = std (.readEnd node) f1 f2 := by
  funext i
  fin_cases i <;> rfl

theorem wait_std : ((withPipe f0 f1 f2 node).close 3).close 4 = std f0 f1 f2 := by
  funext i
  fin_cases i <;> rfl

end Std

structure Calls.Succeed (sys : Calls) : Prop where
  openOk : ∀ node, sys.openOk node = true
  pipeOk : ∀ node, sys.pipeOk node = true
  forkOk : ∀ node side, sys.forkOk node side = true

def Cmd.Redirects : Cmd → Prop
  | .exec _ => True
  | .redir cmd _ _ fd => (fd = 0 ∨ fd = 1) ∧ cmd.Redirects
  | .pipe left right => left.Redirects ∧ right.Redirects
  | .list left right => left.Redirects ∧ right.Redirects
  | .back cmd => cmd.Redirects

section Parsed

theorem redirects_wrap {c : Cmd} (h : c.Redirects) (rs : List Redir) : (wrap rs c).Redirects := by
  induction rs generalizing c with
  | nil => exact h
  | cons r rs ih =>
      apply ih
      obtain ⟨d, f⟩ := r
      cases d with
      | lt => exact ⟨.inl rfl, h⟩
      | gt => exact ⟨.inr rfl, h⟩
      | gtgt => exact ⟨.inr rfl, h⟩

theorem redirects_backs {c : Cmd} (h : c.Redirects) (n : Nat) : (backs n c).Redirects := by
  induction n generalizing c with
  | zero => exact h
  | succ n ih => exact ih (c := .back c) h

theorem Derives.redirects {nt : Nonterminal} {ts : List Token} {c : Cmd} (h : Derives nt ts c) : c.Redirects := by
  induction h with
  | line n h ih => exact redirects_backs ih n
  | list n h h' ih ih' => exact ⟨redirects_backs ih n, ih'⟩
  | exec h ih => exact ih
  | pipe h h' ih ih' => exact ⟨ih, ih'⟩
  | block rs h ih => exact redirects_wrap ih rs
  | args rs as h => exact redirects_wrap (c := .exec _) trivial _

theorem parsecmd_redirects {s : Ptr} {c : Cmd} {nuls : List Ptr} (h : parsecmd s = .ok (c, nuls)) : c.Redirects :=
  (parsecmd_sound h).1.redirects

end Parsed

section Run

variable {sys : Calls} {node : Path} {f0 f1 f2 : Obj}

theorem runcmd_redir (hsys : sys.Succeed) (cmd : Cmd) (w : Span) (m : Nat) {fd : Nat} (hfd : fd = 0 ∨ fd = 1) :
    runcmd sys node (std f0 f1 f2) (.redir cmd w m fd) = ⟨.enter, node, std f0 f1 f2⟩ ::
      runcmd sys (node ++ [.sub]) (std (if fd = 0 then .file node else f0) (if fd = 1 then .file node else f1)
        f2) cmd := by
  rw [runcmd, if_pos (hsys.openOk node)]
  rcases hfd with rfl | rfl
  · rw [redirect_input]
    rfl
  · rw [redirect_output]
    rfl

theorem runcmd_list (hsys : sys.Succeed) (left right : Cmd) :
    runcmd sys node (std f0 f1 f2) (.list left right) = ⟨.enter, node, std f0 f1 f2⟩ ::
      (runcmd sys (node ++ [.left]) (std f0 f1 f2) left ++
        ⟨.wait, node, std f0 f1 f2⟩ :: runcmd sys (node ++ [.right]) (std f0 f1 f2) right) := by
  rw [runcmd, if_pos (hsys.forkOk node .left)]

theorem runcmd_pipe (hsys : sys.Succeed) (left right : Cmd) :
    runcmd sys node (std f0 f1 f2) (.pipe left right) = ⟨.enter, node, std f0 f1 f2⟩ ::
      (runcmd sys (node ++ [.left]) (std f0 (.writeEnd node) f2) left ++
        (runcmd sys (node ++ [.right]) (std (.readEnd node) f1 f2) right ++ [⟨.wait, node, std f0 f1 f2⟩])) := by
  rw [runcmd, if_pos (hsys.pipeOk node), pipe_std]
  dsimp only
  rw [if_pos (hsys.forkOk node .left), if_pos (hsys.forkOk node .right)]
  rw [show ((3 : Fin nofile) : Nat) = 3 from rfl, show ((4 : Fin nofile) : Nat) = 4 from rfl, left_std,
    right_std, wait_std]

theorem runcmd_back (hsys : sys.Succeed) (cmd : Cmd) :
    runcmd sys node (std f0 f1 f2) (.back cmd) = ⟨.enter, node, std f0 f1 f2⟩ ::
      runcmd sys (node ++ [.sub]) (std f0 f1 f2) cmd := by
  rw [runcmd, if_pos (hsys.forkOk node .sub)]

end Run

def Cmd.subtree : Cmd → Path → Option Cmd
  | c, [] => some c
  | .redir cmd _ _ _, .sub :: below => cmd.subtree below
  | .list left _, .left :: below => left.subtree below
  | .list _ right, .right :: below => right.subtree below
  | .pipe left _, .left :: below => left.subtree below
  | .pipe _ right, .right :: below => right.subtree below
  | .back cmd, .sub :: below => cmd.subtree below
  | _, _ :: _ => none

/-- What a descriptor is for at a place, if it is for `f` in the process that starts the tree. -/
def wired (fd : Nat) (node : Path) (f : Obj) : Cmd → Path → Obj
  | .redir cmd _ _ fd', .sub :: below => wired fd (node ++ [.sub]) (if fd' = fd then .file node else f) cmd below
  | .list left _, .left :: below => wired fd (node ++ [.left]) f left below
  | .list _ right, .right :: below => wired fd (node ++ [.right]) f right below
  | .pipe left _, .left :: below => wired fd (node ++ [.left]) (if fd = 1 then .writeEnd node else f) left below
  | .pipe _ right, .right :: below => wired fd (node ++ [.right]) (if fd = 0 then .readEnd node else f) right below
  | .back cmd, .sub :: below => wired fd (node ++ [.sub]) f cmd below
  | _, _ => f

def Kept (fd : Nat) : Cmd → Path → Prop
  | .redir cmd _ _ fd', .sub :: below => fd' ≠ fd ∧ Kept fd cmd below
  | .list left _, .left :: below => Kept fd left below
  | .list _ right, .right :: below => Kept fd right below
  | .pipe left _, .left :: below => fd ≠ 1 ∧ Kept fd left below
  | .pipe _ right, .right :: below => fd ≠ 0 ∧ Kept fd right below
  | .back cmd, .sub :: below => Kept fd cmd below
  | _, _ => True

section Events

variable {sys : Calls} {node : Path} {f0 f1 f2 : Obj} {c : Cmd} {ev : Event}

def IsWired (node : Path) (f0 f1 f2 : Obj) (c : Cmd) (ev : Event) : Prop :=
  ∃ below, ev.node = node ++ below ∧ ev.fds = std (wired 0 node f0 c below) (wired 1 node f1 c below) f2

theorem isWired_here (p : Point) : IsWired node f0 f1 f2 c ⟨p, node, std f0 f1 f2⟩ := by
  refine ⟨[], (List.append_nil node).symm, ?_⟩
  cases c <;> rfl

theorem IsWired.up {side : Side} {g0 g1 : Obj} {d : Cmd} (h : IsWired (node ++ [side]) g0 g1 f2 d ev)
    (h0 : ∀ below, wired 0 node f0 c (side :: below) = wired 0 (node ++ [side]) g0 d below)
    (h1 : ∀ below, wired 1 node f1 c (side :: below) = wired 1 (node ++ [side]) g1 d below) :
    IsWired node f0 f1 f2 c ev := by
  obtain ⟨below, hnode, hfds⟩ := h
  refine ⟨side :: below, ?_, ?_⟩
  · rw [hnode, List.append_assoc]
    rfl
  · rw [hfds, h0, h1]

theorem runcmd_events (hsys : sys.Succeed) (hc : c.Redirects) (node : Path) (f0 f1 f2 : Obj) :
    ∀ ev ∈ runcmd sys node (std f0 f1 f2) c, IsWired node f0 f1 f2 c ev := by
  induction c generalizing node f0 f1 with
  | exec argv =>
      intro ev hev
      rw [runcmd] at hev
      split at hev
      · obtain rfl := List.mem_singleton.mp hev
        exact isWired_here .enter
      · rcases List.mem_cons.mp hev with rfl | hev
        · exact isWired_here .enter
        · obtain rfl := List.mem_singleton.mp hev
          exact isWired_here .exec
  | redir cmd w m fd ih =>
      intro ev hev
      rw [runcmd_redir hsys cmd w m hc.1] at hev
      rcases List.mem_cons.mp hev with rfl | hev
      · exact isWired_here .enter
      · exact (ih hc.2 _ _ _ ev hev).up (fun _ => rfl) (fun _ => rfl)
  | list left right ihl ihr =>
      intro ev hev
      rw [runcmd_list hsys, List.mem_cons, List.mem_append, List.mem_cons] at hev
      rcases hev with rfl | hev | rfl | hev
      · exact isWired_here .enter
      · exact (ihl hc.1 _ _ _ ev hev).up (fun _ => rfl) (fun _ => rfl)
      · exact isWired_here .wait
      · exact (ihr hc.2 _ _ _ ev hev).up (fun _ => rfl) (fun _ => rfl)
  | pipe left right ihl ihr =>
      intro ev hev
      rw [runcmd_pipe hsys, List.mem_cons, List.mem_append, List.mem_append, List.mem_singleton] at hev
      rcases hev with rfl | hev | hev | rfl
      · exact isWired_here .enter
      · exact (ihl hc.1 _ _ _ ev hev).up (fun _ => rfl) (fun _ => rfl)
      · exact (ihr hc.2 _ _ _ ev hev).up (fun _ => rfl) (fun _ => rfl)
      · exact isWired_here .wait
  | back cmd ih =>
      intro ev hev
      rw [runcmd_back hsys] at hev
      rcases List.mem_cons.mp hev with rfl | hev
      · exact isWired_here .enter
      · exact (ih hc _ _ _ ev hev).up (fun _ => rfl) (fun _ => rfl)

theorem runcmd_execs (hsys : sys.Succeed) (hc : c.Redirects) (node : Path) (f0 f1 f2 : Obj) {below : Path}
    {argv : List Span}
    (hleaf : c.subtree below = some (.exec argv)) (hargv : argv ≠ []) :
    ∃ fds, ⟨.exec, node ++ below, fds⟩ ∈ runcmd sys node (std f0 f1 f2) c := by
  induction c generalizing node f0 f1 below with
  | exec argv' =>
      cases below with
      | nil =>
          cases hleaf
          refine ⟨std f0 f1 f2, ?_⟩
          rw [runcmd, if_neg hargv, List.append_nil]
          exact List.mem_cons_of_mem _ List.mem_cons_self
      | cons side below => cases side <;> cases hleaf
  | redir cmd w m fd ih =>
      cases below with
      | nil => cases hleaf
      | cons side below =>
          cases side with
          | sub =>
              obtain ⟨fds, hmem⟩ := ih hc.2 (node ++ [.sub]) _ _ hleaf
              refine ⟨fds, ?_⟩
              rw [runcmd_redir hsys cmd w m hc.1, List.append_cons node .sub below]
              exact List.mem_cons_of_mem _ hmem
          | left => cases hleaf
          | right => cases hleaf
  | list left right ihl ihr =>
      cases below with
      | nil => cases hleaf
      | cons side below =>
          rw [runcmd_list hsys, List.append_cons node side below]
          cases side with
          | left =>
              obtain ⟨fds, hmem⟩ := ihl hc.1 (node ++ [.left]) _ _ hleaf
              exact ⟨fds, List.mem_cons_of_mem _ (List.mem_append_left _ hmem)⟩
          | right =>
              obtain ⟨fds, hmem⟩ := ihr hc.2 (node ++ [.right]) _ _ hleaf
              exact ⟨fds, List.mem_cons_of_mem _ (List.mem_append_right _ (List.mem_cons_of_mem _ hmem))⟩
          | sub => cases hleaf
  | pipe left right ihl ihr =>
      cases below with
      | nil => cases hleaf
      | cons side below =>
          rw [runcmd_pipe hsys, List.append_cons node side below]
          cases side with
          | left =>
              obtain ⟨fds, hmem⟩ := ihl hc.1 (node ++ [.left]) _ _ hleaf
              exact ⟨fds, List.mem_cons_of_mem _ (List.mem_append_left _ hmem)⟩
          | right =>
              obtain ⟨fds, hmem⟩ := ihr hc.2 (node ++ [.right]) _ _ hleaf
              exact ⟨fds, List.mem_cons_of_mem _ (List.mem_append_right _ (List.mem_append_left _ hmem))⟩
          | sub => cases hleaf
  | back cmd ih =>
      cases below with
      | nil => cases hleaf
      | cons side below =>
          cases side with
          | sub =>
              obtain ⟨fds, hmem⟩ := ih hc (node ++ [.sub]) _ _ hleaf
              refine ⟨fds, ?_⟩
              rw [runcmd_back hsys, List.append_cons node .sub below]
              exact List.mem_cons_of_mem _ hmem
          | left => cases hleaf
          | right => cases hleaf

end Events

section Wired

variable {fd : Nat} {node : Path} {f : Obj} {c d : Cmd} {above below : Path}

theorem wired_append (h : c.subtree above = some d) : wired fd node f c (above ++ below) =
    wired fd (node ++ above) (wired fd node f c above) d below := by
  induction above generalizing node f c with
  | nil =>
      have hself : wired fd node f c [] = f := by cases c <;> rfl
      rw [Cmd.subtree] at h
      rw [hself, List.append_nil, List.nil_append, Option.some.inj h]
  | cons side above ih =>
      rw [List.append_cons node side above]
      cases c <;> cases side <;> first | exact ih h | cases h

theorem wired_of_kept (h : Kept fd c below) : wired fd node f c below = f := by
  induction below generalizing node f c with
  | nil => cases c <;> rfl
  | cons side below ih =>
      cases c with
      | exec argv => cases side <;> rfl
      | redir cmd w m fd' =>
          cases side with
          | sub => rw [wired, if_neg h.1, ih h.2]
          | left => rfl
          | right => rfl
      | list left right =>
          cases side with
          | sub => rfl
          | left => exact ih h
          | right => exact ih h
      | pipe left right =>
          cases side with
          | sub => rfl
          | left => rw [wired, if_neg h.1, ih h.2]
          | right => rw [wired, if_neg h.1, ih h.2]
      | back cmd =>
          cases side with
          | sub => exact ih h
          | left => rfl
          | right => rfl

def Obj.pipeEnd : Obj → Option (Path × Side)
  | .given _ => none
  | .file _ => none
  | .readEnd node => some (node, .right)
  | .writeEnd node => some (node, .left)

theorem wired_pipeEnd {π : Path} {side : Side} (h : (wired fd node f c below).pipeEnd = some (π, side)) :
    f.pipeEnd = some (π, side) ∨ π ++ [side] <+: node ++ below := by
  induction below generalizing node f c with
  | nil =>
      left
      cases c <;> exact h
  | cons s below ih =>
      rw [List.append_cons node s below]
      cases c with
      | exec argv => cases s <;> exact .inl h
      | redir cmd w m fd' =>
          cases s with
          | sub =>
              rcases ih h with hf | hπ
              · split at hf
                · cases hf
                · exact .inl hf
              · exact .inr hπ
          | left => exact .inl h
          | right => exact .inl h
      | list left right =>
          cases s with
          | sub => exact .inl h
          | left => exact ih h
          | right => exact ih h
      | pipe left right =>
          cases s with
          | sub => exact .inl h
          | left =>
              rcases ih h with hf | hπ
              · split at hf
                · cases hf
                  exact .inr (List.prefix_append _ _)
                · exact .inl hf
              · exact .inr hπ
          | right =>
              rcases ih h with hf | hπ
              · split at hf
                · cases hf
                  exact .inr (List.prefix_append _ _)
                · exact .inl hf
              · exact .inr hπ
      | back cmd =>
          cases s with
          | sub => exact ih h
          | left => exact .inl h
          | right => exact .inl h

end Wired

section Std

variable {f0 f1 f2 : Obj} {i : Fin nofile} {o : Obj}

theorem std_isSome : (std f0 f1 f2 i).isSome = true ↔ i.val < 3 := by
  fin_cases i <;> simp [std]

theorem std_cases (h : std f0 f1 f2 i = some o) : o = f0 ∨ o = f1 ∨ o = f2 := by
  unfold std at h
  split at h
  · exact .inl (Option.some.inj h).symm
  · split at h
    · exact .inr (.inl (Option.some.inj h).symm)
    · split at h
      · exact .inr (.inr (Option.some.inj h).symm)
      · cases h

end Std

/-- What is said about a process of a tree at one of its nodes: exactly descriptors 0, 1 and 2 are open, 2 is as
it was, each of the others is what the nearest redirection or pipe above makes it, and no end of a pipe is open
anywhere but on its side. -/
structure WellWired (c : Cmd) (g0 g1 g2 : Nat) (ev : Event) : Prop where
  only : ∀ i, (ev.fds i).isSome = true ↔ i.val < 3
  error : ev.fds 2 = some (.given g2)
  output : ∀ π left right below, c.subtree π = some (.pipe left right) → ev.node = π ++ .left :: below →
    Kept 1 left below → ev.fds 1 = some (.writeEnd π)
  input : ∀ π left right below, c.subtree π = some (.pipe left right) → ev.node = π ++ .right :: below →
    Kept 0 right below → ev.fds 0 = some (.readEnd π)
  file : ∀ π cmd w m fd below, c.subtree π = some (.redir cmd w m fd) → ev.node = π ++ .sub :: below →
    Kept fd cmd below → ∀ i, i.val = fd → ev.fds i = some (.file π)
  unchanged : ∀ i, i.val < 3 → Kept i.val c ev.node → ev.fds i = std (.given g0) (.given g1) (.given g2) i
  ends : ∀ i o π side, ev.fds i = some o → o.pipeEnd = some (π, side) → π ++ [side] <+: ev.node

theorem Cmd.Redirects.subtree {c d : Cmd} (hc : c.Redirects) {π : Path} (h : c.subtree π = some d) :
    d.Redirects := by
  induction π generalizing c with
  | nil =>
      rw [Cmd.subtree] at h
      cases h
      exact hc
  | cons s π ih =>
      cases c with
      | exec argv => cases s <;> cases h
      | redir cmd w m fd =>
          cases s with
          | sub => exact ih hc.2 h
          | left => cases h
          | right => cases h
      | list left right =>
          cases s with
          | sub => cases h
          | left => exact ih hc.1 h
          | right => exact ih hc.2 h
      | pipe left right =>
          cases s with
          | sub => cases h
          | left => exact ih hc.1 h
          | right => exact ih hc.2 h
      | back cmd =>
          cases s with
          | sub => exact ih (c := cmd) hc h
          | left => cases h
          | right => cases h

theorem IsWired.wellWired {c : Cmd} (hc : c.Redirects) {g0 g1 g2 : Nat} {ev : Event}
    (h : IsWired [] (.given g0) (.given g1) (.given g2) c ev) : WellWired c g0 g1 g2 ev := by
  obtain ⟨p, node, fds⟩ := ev
  obtain ⟨below, hnode, hfds⟩ := h
  rw [List.nil_append] at hnode
  obtain rfl : node = below := hnode
  obtain rfl : fds = std _ _ _ := hfds
  refine ⟨fun i => std_isSome, rfl, ?_, ?_, ?_, ?_, ?_⟩
  · rintro π left right below hπ rfl hkept
    show some (wired 1 _ _ _ _) = _
    rw [wired_append hπ, wired, wired_of_kept hkept]
    rfl
  · rintro π left right below hπ rfl hkept
    show some (wired 0 _ _ _ _) = _
    rw [wired_append hπ, wired, wired_of_kept hkept]
    rfl
  · rintro π cmd w m fd below hπ rfl hkept i rfl
    rcases (hc.subtree hπ).1 with hi | hi
    · obtain rfl : i = 0 := Fin.ext hi
      have hkept : Kept 0 cmd below := hkept
      show some (wired 0 _ _ _ _) = _
      rw [wired_append hπ, wired, wired_of_kept hkept, if_pos hi, List.nil_append]
    · obtain rfl : i = 1 := Fin.ext hi
      have hkept : Kept 1 cmd below := hkept
      show some (wired 1 _ _ _ _) = _
      rw [wired_append hπ, wired, wired_of_kept hkept, if_pos hi, List.nil_append]
  · intro i hi hkept
    obtain hi | hi | hi : i.val = 0 ∨ i.val = 1 ∨ i.val = 2 := by omega
    · obtain rfl : i = 0 := Fin.ext hi
      have hkept : Kept 0 c node := hkept
      show some (wired 0 _ _ _ _) = some _
      rw [wired_of_kept hkept]
    · obtain rfl : i = 1 := Fin.ext hi
      have hkept : Kept 1 c node := hkept
      show some (wired 1 _ _ _ _) = some _
      rw [wired_of_kept hkept]
    · obtain rfl : i = 2 := Fin.ext hi
      rfl
  · intro i o π side ho hend
    rcases std_cases ho with rfl | rfl | rfl
    · rcases wired_pipeEnd hend with hgiven | hπ
      · cases hgiven
      · exact hπ
    · rcases wired_pipeEnd hend with hgiven | hπ
      · cases hgiven
      · exact hπ
    · cases hend

/-- For every tree of the shell started with exactly descriptors 0, 1 and 2, each of its commands is executed,
and every process has the right descriptors, when it enters `runcmd`, when it waits and when it executes its
command. -/
theorem runcmd_wires (sys : Calls) (hsys : sys.Succeed) (c : Cmd) (hc : c.Redirects) (g0 g1 g2 : Nat) :
    (∀ π argv, c.subtree π = some (.exec argv) → argv ≠ [] →
      ∃ fds, ⟨.exec, π, fds⟩ ∈ runcmd sys [] (std (.given g0) (.given g1) (.given g2)) c) ∧
    ∀ ev ∈ runcmd sys [] (std (.given g0) (.given g1) (.given g2)) c, WellWired c g0 g1 g2 ev := by
  constructor
  · intro π argv hleaf hargv
    exact runcmd_execs hsys hc [] _ _ _ hleaf hargv
  · intro ev hev
    exact (runcmd_events hsys hc [] _ _ _ ev hev).wellWired hc

def allOk : Calls := ⟨fun _ => true, fun _ => true, fun _ _ => true⟩

theorem succeed_allOk : allOk.Succeed := ⟨fun _ => rfl, fun _ => rfl, fun _ _ => rfl⟩

def threeStages : Cmd := .pipe (.exec [⟨[], []⟩]) (.pipe (.exec [⟨[], []⟩]) (.exec [⟨[], []⟩]))

theorem runcmd_wires_threeStages : ∃ fds,
    ⟨.exec, [.right, .left], fds⟩ ∈ runcmd allOk [] (std (.given 0) (.given 1) (.given 2)) threeStages ∧
      fds 0 = some (.readEnd []) ∧ fds 1 = some (.writeEnd [.right]) ∧ fds 2 = some (.given 2) := by
  have hc : threeStages.Redirects := ⟨trivial, trivial, trivial⟩
  obtain ⟨hexec, hwired⟩ := runcmd_wires allOk succeed_allOk threeStages hc 0 1 2
  obtain ⟨fds, hmem⟩ := hexec [.right, .left] [⟨[], []⟩] rfl (by simp)
  have hw := hwired _ hmem
  refine ⟨fds, hmem, ?_, ?_, hw.error⟩
  · exact hw.input [] _ _ [.left] rfl rfl ⟨by decide, trivial⟩
  · exact hw.output [.right] _ _ [] rfl rfl trivial

/-- The third stage is on the right side of both pipes, without any redirection, and its input is the inner pipe. -/
theorem inner_pipe_replaces_outer : ∃ fds,
    ⟨.exec, [.right, .right], fds⟩ ∈ runcmd allOk [] (std (.given 0) (.given 1) (.given 2)) threeStages ∧
      fds 0 = some (.readEnd [.right]) ∧ fds 0 ≠ some (.readEnd []) := by
  refine ⟨std (.readEnd [.right]) (.given 1) (.given 2), ?_, rfl, by decide⟩
  rw [threeStages, runcmd_pipe succeed_allOk, runcmd_pipe succeed_allOk]
  simp [runcmd]

end Xv6.Shell
