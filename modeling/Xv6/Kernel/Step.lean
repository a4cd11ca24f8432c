import Xv6.Kernel.Boot
import Xv6.Kernel.Io

namespace Xv6.Kernel

open Lib Lib.Exec Lib.RefCount Finset

variable {sb : Fs.Layout} {k k' : State} {p : Fin nproc} {c : Fin ninode}

def kill (pid : Int) : KM Int := do
  let t ← Exec.gets State.ptable
  match (List.finRange nproc).find? fun q => ((t q).pid : Int) = pid with
  | some q => do
      setProc q { t q with killed := true, state := if (t q).state = .sleeping then .runnable else (t q).state }
      pure 0
  | none => pure (-1)

def sysSbrk (p : Fin nproc) (grown : Option UInt64) : KM Int := do
  let x ← proc p
  match grown with
  | some sz => do
      setProc p { x with sz }
      pure x.sz.toNat
  | none => pure (-1)

/-- All system calls, but for `getpid`, `sleep` and `uptime`, which touch none of the state. -/
inductive Sys
  | call (c : Call)
  | read (fd : Int) (arg junk : UInt64) (n : Int32)
  | write (fd : Int) (arg junk : UInt64) (mem : UInt64 → UInt8) (n : Int32)
  | fstat (fd : Int) (arg junk : UInt64)
  | kill (pid : Int)
  | sbrk (grown : Option UInt64)

/-- The process has not exited, and the pointers through which `read` and `fstat` store are ones to its memory. -/
def Sys.Ready (k : State) (a : Fin nproc × Sys) : Prop :=
  match a.2 with
  | .call c => Call.Ready k (a.1, c)
  | .read _ arg junk n =>
      ¬ (k.ptable a.1).Dead ∧
        UserPtr (k.ptable a.1).sz (argptr (k.ptable a.1).sz arg junk n).2 n.toUInt32.toNat
  | .fstat _ arg junk =>
      ¬ (k.ptable a.1).Dead ∧ UserPtr (k.ptable a.1).sz (argptr (k.ptable a.1).sz arg junk 20).2 20
  | _ => ¬ (k.ptable a.1).Dead

instance (k : State) (a : Fin nproc × Sys) : Decidable (Sys.Ready k a) := by
  unfold Sys.Ready
  split <;> infer_instance

def Sys.Effect (sb : Fs.Layout) (d : Disk) (cwd : Nat) (a : Sys) (t : Fs.Tree) : Prop :=
  match a with
  | .call c => Kernel.Effect sb d cwd c t
  | _ => t = Fs.tree sb d

theorem Sys.Effect.keep (d : Disk) (cwd : Nat) (a : Sys) : a.Effect sb d cwd (Fs.tree sb d) := by
  cases a with
  | call c => exact Kernel.Effect.keep c
  | _ => rfl

theorem Sys.Ready.live {a : Sys} (h : Sys.Ready k (p, a)) : ¬ (k.ptable p).Dead := by
  cases a with
  | call c => exact h.1
  | read fd arg junk n => exact h.1
  | fstat fd arg junk => exact h.1
  | _ => exact h

structure Next (sb : Fs.Layout) (k : State) (cwd : Nat) (a : Sys) (k' : State) : Prop where
  between : Between sb k'
  effect : ∃ t, a.Effect sb k.fs.disk cwd t ∧ Fs.Swept (Fs.Used k'.fs) t (k'.tree sb)

namespace Next

variable {cwd : Nat} {a : Sys} {t : Fs.Tree}

theorem of_tree (h : Between sb k') (ht : k'.tree sb = k.tree sb) : Next sb k cwd a k' :=
  ⟨h, _, .keep _ _ a, by rw [ht]; exact .refl _ _⟩

theorem same (h : Between sb k) : Next sb k cwd a k := .of_tree h rfl

theorem of_leaves (h : Leaves sb k k') : Next sb k cwd a k' := ⟨h.1, _, .keep _ _ a, h.2⟩

theorem of_calm (h : Between sb k) (hc : Counted k') (hk : Calm sb k k') : Next sb k cwd a k' :=
  .of_tree (h.of_calm hc hk) hk.tree

end Next

section Tables

variable {cwd : Nat} {a : Sys} {m : KM Int}

theorem next_of_tame (h : Between sb k) (hc : wp m (fun _ k' => Counted k') (fun _ => True) k)
    (ht : wp m (fun _ k' => Tame k k' ∧ k'.fs = k.fs) TablePanic k) :
    wp m (fun _ k' => Next sb k cwd a k') (Stops (k.tree sb) cwd) k :=
  (hc.conj ht).mono (fun _ _ ⟨hk, htame, hfs⟩ => .of_calm h hk (h.calm.tables htame hfs)) fun _ he => he.2.stops

theorem kill_between (h : Between sb k) (pid : Int) :
    wp (kill pid) (fun _ k' => Between sb k' ∧ k'.tree sb = k.tree sb) (fun _ => False) k := by
  simp only [kill, wp_bind, wp_gets]
  split
  next q _ =>
    simp only [setProc, wp_bind, wp_update, wp_pure]
    set x : Proc :=
      { k.ptable q with
        killed := true
        state := if (k.ptable q).state = .sleeping then .runnable else (k.ptable q).state }
    have hstate : x.state = (k.ptable q).state ∨ (k.ptable q).state = .sleeping ∧ x.state = .runnable := by
      by_cases hs : (k.ptable q).state = .sleeping
      · exact .inr ⟨hs, if_pos hs⟩
      · exact .inl (if_neg hs)
    have hdead : x.Dead ↔ (k.ptable q).Dead := by
      rcases hstate with hs | ⟨hs, hs'⟩
      · rw [Proc.Dead, Proc.Dead, hs]
      · simp [Proc.Dead, hs, hs']
    have hq := h.procs q
    have hset : x.Settled := by
      refine ⟨?_, fun hd => hq.dead (hdead.mp hd), fun hd => hq.alive fun hd' => hd (hdead.mpr hd')⟩
      rcases hstate with hs | ⟨-, hs'⟩
      · rw [hs]
        exact hq.grown
      · rw [hs']
        decide
    have h₁ : Holding (Function.update k.ptable q x) [] [] k := Files.setProc h.kept.files rfl rfl
    refine ⟨h.of_calm ⟨h₁.of_ptable _, settled_update h.procs hset⟩ (h.calm.tables (.setProc rfl rfl rfl) rfl),
      trivial⟩
  next => exact ⟨h, rfl⟩

theorem sysSbrk_between (h : Between sb k) (p : Fin nproc) (grown : Option UInt64) :
    wp (sysSbrk p grown) (fun _ k' => Between sb k' ∧ k'.tree sb = k.tree sb) (fun _ => False) k := by
  simp only [sysSbrk, proc, wp_bind, wp_gets]
  cases grown with
  | none => exact ⟨h, rfl⟩
  | some sz =>
      simp only [setProc, wp_bind, wp_update, wp_pure]
      have hp := h.procs p
      have h₁ : Holding (Function.update k.ptable p { k.ptable p with sz }) [] [] k :=
        Files.setProc h.kept.files rfl rfl
      refine ⟨h.of_calm ⟨h₁.of_ptable _, settled_update h.procs ⟨hp.grown, hp.dead, hp.alive⟩⟩
        (h.calm.tables (.setProc rfl rfl rfl) rfl), trivial⟩

end Tables

section

variable [Fs.Devsw]

theorem sysExec_next (h : Between sb k) (hp : ¬ (k.ptable p).Dead) (hc : (k.ptable p).cwd = some c)
    (path : Option (List UInt8)) (args : Bool) (env : ExecEnv) {a : Sys} :
    wp (sysExec sb p path args env) (fun _ k' => Next sb k (inums k.fs c) a k')
      (Stops (k.tree sb) (inums k.fs c)) k := by
  cases path with
  | none => exact .same h
  | some path =>
      refine wp_ite.mpr ⟨fun _ => ?_, fun _ => .same h⟩
      exact ((exec_counted h.counted path env).conj (exec_calm h hp hc path env)).mono
        (fun _ _ ⟨hcount, hcalm⟩ => .of_calm h hcount hcalm) fun _ he => he.2

theorem sysCreate_next (h : Between sb k) (hp : ¬ (k.ptable p).Dead) (hc : (k.ptable p).cwd = some c) {call : Call}
    {path : Option (List UInt8)} {type : Int16} (hcall : ∀ q, path = some q → call.creates = some (q, type))
    (h0 : type ≠ 0)
    (hfile : type ≠ Fs.tFile) (major minor : Int16) :
    wp (sysCreate sb p path type major minor) (fun _ k' => Next sb k (inums k.fs c) (.call call) k')
      (Stops (k.tree sb) (inums k.fs c)) k := by
  cases path with
  | none => exact .same h
  | some path =>
      refine (sysCreate_kept h hp hc (hcall path rfl) h0 hfile major minor).mono (fun r k' ⟨_, hk', _, hr⟩ => ?_)
        fun _ he => stops_pathPanic he.1
      rcases hr with ⟨-, htree, -⟩ | ⟨-, j, n, name, t, hmade, hswept⟩
      · exact .of_tree hk' htree
      · exact ⟨hk', t, .create (hcall path rfl) hmade, hswept⟩

theorem sysOpen_next (h : Between sb k) (hp : ¬ (k.ptable p).Dead) (hc : (k.ptable p).cwd = some c)
    (path : Option (List UInt8)) (omode : UInt32) :
    wp (sysOpen sb p path omode) (fun _ k' => Next sb k (inums k.fs c) (.call (.open path omode)) k')
      (Stops (k.tree sb) (inums k.fs c)) k := by
  cases path with
  | none => exact .same h
  | some path =>
      refine (sysOpen_kept h hp hc path omode).mono (fun r k' ⟨_, hk', _, hr⟩ => ?_) fun _ he =>
        stops_pathPanic he.1
      rcases hr with ⟨htree, -⟩ | ⟨hmode, -, j, n, name, t, hmade, hswept⟩
      · exact .of_tree hk' htree
      · exact ⟨hk', t, .create (if_pos hmode) hmade, hswept⟩

theorem sysLink_next (h : Between sb k) (hp : ¬ (k.ptable p).Dead) (hc : (k.ptable p).cwd = some c)
    (old new : Option (List UInt8)) :
    wp (sysLink sb p old new) (fun _ k' => Next sb k (inums k.fs c) (.call (.link old new)) k')
      (Stops (k.tree sb) (inums k.fs c)) k := by
  match old, new with
  | some old, some new =>
      refine (sysLink_kept h hp hc old new).mono (fun r k' ⟨_, hk', _, hr⟩ => ?_)
        fun _ he => he.1.elim stops_pathPanic stops_pathPanic
      rcases hr with ⟨-, htree⟩ | ⟨-, n, j, name, hwalk, hlive, hdir, hlacks, hswept⟩
      · exact .of_tree hk' htree
      · exact ⟨hk', _, .link hwalk hlive hdir hlacks, hswept⟩
  | none, _ => exact .same h
  | some _, none => exact .same h

theorem sysUnlink_next (h : Between sb k) (hp : ¬ (k.ptable p).Dead) (hc : (k.ptable p).cwd = some c)
    (path : Option (List UInt8)) :
    wp (sysUnlink sb p path) (fun _ k' => Next sb k (inums k.fs c) (.call (.unlink path)) k')
      (Stops (k.tree sb) (inums k.fs c)) k := by
  cases path with
  | none => exact .same h
  | some path =>
      refine (sysUnlink_kept h hp hc path).mono (fun r k' ⟨hk', hr⟩ => ?_) fun _ he => stops_unlinkPanic he.1
      rcases hr with ⟨-, htree⟩ | ⟨-, t, heffect, hswept⟩
      · exact .of_tree hk' htree
      · exact ⟨hk', t, heffect, hswept⟩

theorem sysChdir_next (h : Between sb k) (hp : ¬ (k.ptable p).Dead) (hc : (k.ptable p).cwd = some c)
    (path : Option (List UInt8)) {a : Sys} :
    wp (sysChdir sb p path) (fun _ k' => Next sb k (inums k.fs c) a k') (Stops (k.tree sb) (inums k.fs c)) k := by
  cases path with
  | none => exact .same h
  | some path => exact (sysChdir_leaves h hp hc path).imp fun _ _ => .of_leaves

theorem Call.run_next (h : Between sb k) (hc : (k.ptable p).cwd = some c) {a : Call} (ha : Call.Ready k (p, a)) :
    wp (a.run sb p) (fun _ k' => Next sb k (inums k.fs c) (.call a) k') (Stops (k.tree sb) (inums k.fs c)) k := by
  have hp : ¬ (k.ptable p).Dead := ha.1
  have hcount : wp (a.run sb p) (fun _ k' => Counted k') (fun _ => True) k := Call.run_counted h.counted ha
  cases a with
  | «open» path omode => exact sysOpen_next h hp hc path omode
  | dup fd => exact next_of_tame h hcount ((sysDup_tame p fd).mono (fun _ _ hk => hk) fun _ => .inl)
  | close fd => exact (sysClose_leaves h hp fd).mono (fun _ _ => .of_leaves) fun _ => False.elim
  | pipe arg junk mem =>
      refine next_of_tame h hcount (sysPipe_tame h.counted ?_ ha.2.1)
      cases mem with
      | page q => exact ha.2.2
      | _ => exact trivial
  | fork mem copied =>
      exact (hcount.conj (fork_calm h hp mem copied)).mono (fun _ _ ⟨hk, hcalm⟩ => .of_calm h hk hcalm)
        fun _ he => he.2.stops
  | exec path args env => exact sysExec_next h hp hc path args env
  | chdir path => exact sysChdir_next h hp hc path
  | link old new => exact sysLink_next h hp hc old new
  | unlink path => exact sysUnlink_next h hp hc path
  | mkdir path => exact sysCreate_next h hp hc (by rintro q rfl; rfl) (by decide) (by decide) 0 0
  | mknod path major minor =>
      exact sysCreate_next h hp hc (by rintro q rfl; rfl) (by decide) (by decide) major minor
  | exit =>
      refine wp_bind.mpr <| (exit_leaves h hp).mono (fun _ _ => .of_leaves) fun e he => ?_
      rw [he]
      exact .of_ne (by decide) (by decide)
  | wait => exact next_of_tame h hcount (wait_tame p)

def Sys.run (sb : Fs.Layout) (p : Fin nproc) : Sys → KM Int
  | .call c => c.run sb p
  | .read fd arg junk n => sysRead sb p fd arg junk n
  | .write fd arg junk mem n => sysWrite sb p fd arg junk mem n
  | .fstat fd arg junk => sysFstat sb p fd arg junk
  | .kill pid => Kernel.kill pid
  | .sbrk grown => sysSbrk p grown

def Sys.step (sb : Fs.Layout) (k : State) (a : Fin nproc × Sys) : Option State :=
  match a.2.run sb a.1 k with
  | .ok (_, k') => some k'
  | .error _ => none

theorem Sys.run_next (h : Between sb k) (hc : (k.ptable p).cwd = some c) {a : Sys} (ha : Sys.Ready k (p, a)) :
    wp (a.run sb p) (fun _ k' => Next sb k (inums k.fs c) a k') (Stops (k.tree sb) (inums k.fs c)) k := by
  have hquiet {m : KM Int} (hm : wp m (fun _ k' => Quiet sb k k') IoPanic k) :
      wp m (fun _ k' => Next sb k (inums k.fs c) a k') (Stops (k.tree sb) (inums k.fs c)) k :=
    hm.mono (fun _ _ hk => .of_tree (hk.between h) hk.tree) fun _ => IoPanic.stops
  have hkeep {m : KM Int} (hm : wp m (fun _ k' => Between sb k' ∧ k'.tree sb = k.tree sb) (fun _ => False) k) :
      wp m (fun _ k' => Next sb k (inums k.fs c) a k') (Stops (k.tree sb) (inums k.fs c)) k :=
    hm.mono (fun _ _ hk => .of_tree hk.1 hk.2) fun _ => False.elim
  cases a with
  | call a => exact Call.run_next h hc ha
  | read fd arg junk n => exact hquiet (sysRead_quiet h fd ha.2)
  | write fd arg junk mem n => exact hquiet (sysWrite_quiet h p fd arg junk mem n)
  | fstat fd arg junk => exact hquiet (sysFstat_quiet h fd ha.2)
  | kill pid => exact hkeep (kill_between h pid)
  | sbrk grown => exact hkeep (sysSbrk_between h p grown)

end

end Xv6.Kernel
