import Xv6.Fs.SharedWrite
import Xv6.Kernel.Calm

namespace Xv6.Kernel

open Lib Lib.Bytes Lib.Exec

def slot (i : UInt32) : Fin pipesize := ⟨i.toNat % pipesize, Nat.mod_lt _ (by decide)⟩

/-- The loop of `piperead`; `i` bytes have been copied, and at most `n` are left. -/
def pipeCopy (p : Fin nproc) (q : Nat) (addr : UInt64) : (n i : Nat) → KM Nat
  | 0, i => pure i
  | n + 1, i => do
      let x ← pipe q
      if x.nread = x.nwrite then pure i
      else do
        store p (addr + UInt64.ofNat i) (x.data (slot x.nread))
        setPipe q { x with nread := x.nread + 1 }
        pipeCopy p q addr n (i + 1)

/-- `piperead`; a process that finds the pipe empty sleeps until there is something to read. -/
def piperead (p : Fin nproc) (q : Nat) (addr : UInt64) (n : Int32) : KM Int := do
  let x ← pipe q
  if x.nread = x.nwrite ∧ x.writeopen = true then do
    let me ← proc p
    if me.killed = true then pure (-1) else Exec.fail .asleep
  else do
    let i ← pipeCopy p q addr n.toInt.toNat 0
    pure i

/-- The loop of `pipewrite`; `false` stands for the return in the middle. -/
def pipeFill (p : Fin nproc) (q : Nat) (addr : UInt64) (mem : UInt64 → UInt8) : (n i : Nat) → KM Bool
  | 0, _ => pure true
  | n + 1, i => do
      let x ← pipe q
      if x.nwrite = x.nread + 512 then do
        let me ← proc p
        if x.readopen = false ∨ me.killed = true then pure false else Exec.fail .asleep
      else do
        setPipe q
          { x with
            data := Function.update x.data (slot x.nwrite) (mem (addr + UInt64.ofNat i))
            nwrite := x.nwrite + 1 }
        pipeFill p q addr mem n (i + 1)

def pipewrite (p : Fin nproc) (q : Nat) (addr : UInt64) (mem : UInt64 → UInt8) (n : Int32) : KM Int := do
  let done ← pipeFill p q addr mem n.toInt.toNat 0
  if done then pure n.toInt else pure (-1)

variable (sb : Fs.Layout)

/-- `stati`, with the places of the fields in a `struct stat` of 20 bytes. -/
def stati (p : Fin nproc) (ip : Fs.Inode) (st : UInt64) : KM Unit := do
  storeBytes p (st + 4) (leBytes 4 ip.dev)
  storeBytes p (st + 8) (leBytes 4 ip.inum)
  storeBytes p st (leBytes 2 ip.type.toUInt16.toNat)
  storeBytes p (st + 12) (leBytes 2 ip.nlink.toUInt16.toNat)
  storeBytes p (st + 16) (leBytes 4 ip.size.toNat)

def filestat (p : Fin nproc) (f : Fin nfile) (st : UInt64) : KM Int := do
  let x ← file f
  if x.type = .inode then do
    fsM (Fs.ilock sb x.ip)
    let ip ← fsM (Fs.inode x.ip)
    stati p ip st
    fsM (Fs.iunlock x.ip)
    pure 0
  else pure (-1)

section

variable [Fs.Devsw]

def fileread (p : Fin nproc) (f : Fin nfile) (addr : UInt64) (n : Int32) : KM Int := do
  let x ← file f
  if x.readable = false then pure (-1)
  else
    match x.type with
    | .pipe => piperead p x.pipe addr n
    | .inode => do
        fsM (Fs.ilock sb x.ip)
        let (r, bs) ← fsM (Fs.readi sb x.ip x.off n.toUInt32)
        storeBytes p addr bs
        let x ← file f
        if r > 0 then setFile f { x with off := x.off + UInt32.ofNat r.toNat } else pure ()
        fsM (Fs.iunlock x.ip)
        pure r
    | .none => panic .fileread

/-- The loop of `filewrite`; it returns the value of `i` after the loop. -/
def writeLoop (f : Fin nfile) (addr : UInt64) (mem : UInt64 → UInt8) (n : Nat) : (fuel i : Nat) → KM Nat
  | 0, i => pure i
  | fuel + 1, i =>
      if i < n then do
        let n1 := min (n - i) Fs.SharedWrite.maxChunk
        let x ← file f
        fsM (Fs.ilock sb x.ip)
        let r ← fsM (Fs.writei sb x.ip (fun j => mem (addr + UInt64.ofNat (i + j))) x.off (UInt32.ofNat n1))
        if r > 0 then setFile f { x with off := x.off + UInt32.ofNat r.toNat } else pure ()
        fsM (Fs.iunlock x.ip)
        if r < 0 then pure i
        else if r ≠ n1 then panic .shortFilewrite
        else writeLoop f addr mem n fuel (i + n1)
      else pure i

def filewrite (p : Fin nproc) (f : Fin nfile) (addr : UInt64) (mem : UInt64 → UInt8) (n : Int32) : KM Int := do
  let x ← file f
  if x.writable = false then pure (-1)
  else
    match x.type with
    | .pipe => pipewrite p x.pipe addr mem n
    | .inode => do
        let i ← writeLoop sb f addr mem n.toInt.toNat n.toInt.toNat 0
        if (i : Int) = n.toInt then pure n.toInt else pure (-1)
    | .none => panic .filewrite

def sysRead (p : Fin nproc) (fd : Int) (arg junk : UInt64) (n : Int32) : KM Int := do
  match ← argfd p fd with
  | none => pure (-1)
  | some (_, f) => do
      let x ← proc p
      let (r, a) := argptr x.sz arg junk n
      if r < 0 then pure (-1) else fileread sb p f a n

def sysWrite (p : Fin nproc) (fd : Int) (arg junk : UInt64) (mem : UInt64 → UInt8) (n : Int32) : KM Int := do
  match ← argfd p fd with
  | none => pure (-1)
  | some (_, f) => do
      let x ← proc p
      let (r, a) := argptr x.sz arg junk n
      if r < 0 then pure (-1) else filewrite sb p f a mem n

end

def sysFstat (p : Fin nproc) (fd : Int) (arg junk : UInt64) : KM Int := do
  match ← argfd p fd with
  | none => pure (-1)
  | some (_, f) => do
      let x ← proc p
      let (r, st) := argptr x.sz arg junk 20
      if r < 0 then pure (-1) else filestat sb p f st

section Specs

variable {sb : Fs.Layout} {k k' k'' : State} {b J : Fin ninode → Nat} {L : List Fs.Hold} {s : Fs.State}
    {i : Fin ninode}
  {f : Fin nfile} {p : Fin nproc}

theorem ilock_base (h : Fs.Held sb b J L s) (hi : 0 < b i) (hlive : (Fs.tree sb s.disk (J i)).type ≠ 0) :
    wp (Fs.ilock sb i) (fun _ t => Fs.Held sb b J L t ∧ t.disk = s.disk ∧ (t.icache i).valid = true)
      (fun _ => False) s := by
  have hborrow : Fs.Held sb _ J (⟨i, J i, false⟩ :: L) s := h.borrow hi nofun
  refine (Fs.ilock_live hborrow hlive).imp fun _ t ⟨ht, hd⟩ => ⟨ht.giveBack hi, hd, ?_⟩
  exact (ht.held _ List.mem_cons_self).2 rfl

theorem writei_base [Fs.Devsw] (h : Fs.Held sb b J L s) (hi : 0 < b i) (hv : (s.icache i).valid = true)
    (hdir : (Fs.tree sb s.disk (J i)).type ≠ Fs.tDir) (src : Nat → UInt8) (off n : UInt32) :
    wp (Fs.writei sb i src off n) (fun _ t => Fs.Held sb b J L t ∧ Fs.tree sb t.disk = Fs.tree sb s.disk)
      (fun e => e = .asleep ∨ Fs.BmapPanic e) s := by
  have hborrow : Fs.Held sb _ J (⟨i, J i, true⟩ :: L) s := h.borrow hi fun _ => hv
  have hmem : (⟨i, J i, true⟩ : Fs.Hold) ∈ (⟨i, J i, true⟩ : Fs.Hold) :: L := List.mem_cons_self
  by_cases hdev : (s.icache i).type = Fs.tDev
  · simp only [Fs.writei, Fs.inode, wp_bind, wp_gets]
    rw [if_pos hdev, Fs.devWrite]
    refine wp_ite.mpr ⟨fun _ => ?_, fun _ => ⟨h, rfl⟩⟩
    split
    next => exact ⟨h, rfl⟩
    next g _ =>
      cases g src off n with
      | none => exact .inl rfl
      | some r => exact ⟨h, rfl⟩
  · refine (Fs.writei_spec h.consistent (h.base_pos hi) hv hdev).mono (fun r t ht => ?_) fun _ => .inr
    rcases ht with ⟨-, rfl, -⟩ | ⟨-, -, -, x, hx⟩
    · exact ⟨h, rfl⟩
    · have htouch := hx.touched
      rw [h.base i hi] at htouch
      obtain ⟨hheld, htree⟩ := hborrow.touch hmem rfl hx.consistent htouch hx.icache
      refine ⟨hheld.giveBack hi, ?_⟩
      have htype : (s.icache i).type = (Fs.tree sb s.disk (J i)).type := hborrow.type_eq hmem rfl
      have hnode := hborrow.node_eq hmem rfl
      have hxt : x.type ≠ Fs.tDir := by
        rw [hx.type, htype]
        exact hdir
      have hx' : x.node t.disk = Fs.tree sb s.disk (J i) := by
        rw [← hnode, Fs.Dinode.node_of_not_dir hxt, Fs.Dinode.node_of_not_dir (htype ▸ hdir), hx.type,
          show x.nlink = (s.icache i).nlink by rw [hx.rest]]
      rw [htree, hx', Function.update_eq_self]

/-- Nothing has changed but the offsets of files and what the pipes and the files hold. -/
structure Quiet (sb : Fs.Layout) (k k' : State) : Prop where
  held : Fs.Held sb (refs k.ptable k) (inums k.fs) [] k'.fs
  tree : k'.tree sb = k.tree sb
  files : ∀ f, ∃ off, k'.ftable f = { k.ftable f with off }
  procs : k'.ptable = k.ptable
  pipes : ∀ q w, (k'.pipes q).opened w = (k.pipes q).opened w
  pages : k'.kallocs = k.kallocs ∧ k'.kfrees = k.kfrees

namespace Quiet

theorem refl (h : Between sb k) : Quiet sb k k :=
  ⟨h.kept.held, rfl, fun f => ⟨(k.ftable f).off, rfl⟩, rfl, fun _ _ => rfl, rfl, rfl⟩

theorem isEnd (h : Quiet sb k k') (q : Nat) (w : Bool) (f : Fin nfile) :
    IsEnd k'.ftable q w f ↔ IsEnd k.ftable q w f := by
  obtain ⟨off, hf⟩ := h.files f
  rw [IsEnd, IsEnd, hf]

theorem counted (h : Quiet sb k k') (hk : Counted k) : Counted k' := by
  have hopens : opens k'.ftable = opens k.ftable := by
    funext i
    refine congrArg Finset.card (Finset.filter_congr fun f _ => ?_)
    obtain ⟨off, hf⟩ := h.files f
    rw [hf]
  have huse (q) : InUse k'.ftable q ↔ InUse k.ftable q := exists_congr fun w => exists_congr fun f => h.isEnd q w f
  refine ⟨⟨?_, ⟨?_, ?_⟩, fun f hf => ?_, ?_, ?_, ?_, ?_⟩, by rw [h.procs]; exact hk.procs⟩
  · rw [h.procs]
    refine hk.files.files.congr fun f => ?_
    obtain ⟨off, hf⟩ := h.files f
    rw [hf]
  · rw [h.procs, hopens]
    exact h.held.exact
  · exact fun i j hi hj he => h.held.consistent.cache.unique i j hi hj (congrArg Prod.snd he)
  · obtain ⟨off, he⟩ := h.files f
    rw [he] at hf ⊢
    exact hk.files.idle f hf
  · exact fun q w f g hf hg => hk.files.pipes.one q w f g ((h.isEnd q w f).mp hf) ((h.isEnd q w g).mp hg)
  · intro q hq w
    rw [h.pipes]
    exact (hk.files.pipes.opened q ((huse q).mp hq) w).trans (exists_congr fun f => (h.isEnd q w f).symm)
  · intro q hq
    rw [h.pages.1, h.pages.2]
    exact hk.files.pipes.used q ((huse q).mp hq)
  · intro q hq
    rw [h.pages.1, h.pages.2]
    exact hk.files.pipes.unused q fun hu => hq ((huse q).mpr hu)

theorem calm (h : Quiet sb k k') : Calm sb k k' := by
  refine ⟨⟨[], h.held⟩, h.tree, fun f hf => ?_, fun q i hi => ⟨q, by rw [← h.procs]; exact hi⟩⟩
  obtain ⟨off, he⟩ := h.files f
  rw [he] at hf ⊢
  exact ⟨hf, rfl, rfl⟩

theorem between (h : Quiet sb k k') (hk : Between sb k) : Between sb k' := hk.of_calm (h.counted hk.counted) h.calm

theorem setFs (h : Quiet sb k k') (hs : Fs.Held sb (refs k.ptable k) (inums k.fs) [] s)
    (ht : Fs.tree sb s.disk = k.tree sb) : Quiet sb k { k' with fs := s } :=
  ⟨hs, ht, h.files, h.procs, h.pipes, h.pages⟩

theorem setOff (h : Quiet sb k k') (f : Fin nfile) (off : UInt32) :
    Quiet sb k { k' with ftable := Function.update k'.ftable f { k'.ftable f with off } } := by
  refine ⟨h.held, h.tree, fun g => ?_, h.procs, h.pipes, h.pages⟩
  by_cases hg : g = f
  · obtain ⟨off', hf⟩ := h.files f
    refine ⟨off, ?_⟩
    rw [hg]
    dsimp only
    rw [Function.update_self, hf]
  · obtain ⟨off', hf⟩ := h.files g
    refine ⟨off', ?_⟩
    dsimp only
    rw [Function.update_of_ne hg, hf]

theorem setPipe (h : Quiet sb k k') {q : Nat} {x : Pipe} (hx : ∀ w, x.opened w = (k'.pipes q).opened w) :
    Quiet sb k { k' with pipes := Function.update k'.pipes q x } := by
  refine ⟨h.held, h.tree, h.files, h.procs, fun r w => ?_, h.pages⟩
  dsimp only
  by_cases hr : r = q
  · rw [hr, Function.update_self, hx, h.pipes]
  · rw [Function.update_of_ne hr, h.pipes]

end Quiet

def IoPanic (e : Halt) : Prop :=
  e = .asleep ∨ Fs.BmapPanic e ∨ e = .panic .shortFilewrite ∨ e = .panic .fileread ∨ e = .panic .filewrite

theorem IoPanic.stops {t : Fs.Tree} {cwd : Nat} {e : Halt} (h : IoPanic e) : Stops t cwd e := by
  rcases h with rfl | (rfl | rfl) | rfl | rfl | rfl <;> exact .of_ne (by decide) (by decide)

theorem UserPtr.sub {sz a o : UInt64} {m n : Nat} (h : UserPtr sz a n) (ho : o.toNat + m ≤ n) :
    UserPtr sz (a + o) m := by
  rcases h with h | ⟨hlow, hhigh⟩
  · exact .inl (by omega)
  · have hlt := sz.toNat_lt
    have hsum : (a + o).toNat = a.toNat + o.toNat := by
      rw [UInt64.toNat_add]
      exact Nat.mod_eq_of_lt (by omega)
    exact .inr ⟨by omega, by omega⟩

theorem UserPtr.le {sz a : UInt64} {m n : Nat} (h : UserPtr sz a n) (hm : m ≤ n) : UserPtr sz a m := by
  simpa using h.sub (o := 0) (m := m) (by simpa using hm)

/-- A length that is negative as an `int` is a large one as a `uint`. -/
theorem toNat_toInt_le (n : Int32) : n.toInt.toNat ≤ n.toUInt32.toNat := by
  have h : n.toUInt32.toNat = n.toBitVec.toNat := rfl
  rw [h, ← Int32.toInt_toBitVec, BitVec.toInt_eq_toNat_cond]
  split <;> omega

/-- What is stored in the memory of the process leaves the state as it is. -/
theorem storeBytes_same {a : UInt64} {bs : List UInt8} (h : UserPtr (k.ptable p).sz a bs.length)
    (hq : k'.ptable = k.ptable) {X : Halt → Prop} : wp (storeBytes p a bs) (fun _ k'' => k'' = k') X k' :=
  (wp_congr (n := pure ()) (storeBytes_user (by rw [hq]; exact h))).mpr rfl

theorem pipeCopy_quiet (h : Quiet sb k k') (q : Nat) {addr : UInt64} (n i : Nat)
    (hptr : UserPtr (k.ptable p).sz addr (i + n)) :
    wp (pipeCopy p q addr n i) (fun _ k'' => Quiet sb k k'') IoPanic k' := by
  induction n generalizing i k' with
  | zero => exact h
  | succ n ih =>
      simp only [pipeCopy, pipe, wp_bind, wp_gets]
      refine wp_ite.mpr ⟨fun _ => h, fun _ => ?_⟩
      obtain ⟨hlow, hhigh⟩ := hptr.resolve_left (by omega)
      have hlt := (k.ptable p).sz.toNat_lt
      have ha : (addr + UInt64.ofNat i).toNat = addr.toNat + i := by
        rw [UInt64.toNat_add, UInt64.toNat_ofNat', Nat.mod_eq_of_lt (a := i) (by omega)]
        exact Nat.mod_eq_of_lt (by omega)
      rw [← h.procs] at hhigh
      rw [wp_bind, wp_congr (n := pure ()) (store_user (by omega) (by omega) _)]
      simp only [setPipe, wp_bind, wp_pure, wp_update]
      apply ih _ (i + 1) (by rwa [Nat.add_right_comm])
      apply h.setPipe
      exact fun _ => rfl

theorem piperead_quiet (h : Between sb k) (q : Nat) {addr : UInt64} {n : Int32}
    (hptr : UserPtr (k.ptable p).sz addr n.toInt.toNat) :
    wp (piperead p q addr n) (fun _ k' => Quiet sb k k') IoPanic k := by
  simp only [piperead, pipe, wp_bind, wp_gets]
  refine wp_ite.mpr ⟨fun _ => ?_, fun _ => ?_⟩
  · simp only [proc, wp_bind, wp_gets]
    exact wp_ite.mpr ⟨fun _ => .refl h, fun _ => .inl rfl⟩
  · exact (pipeCopy_quiet (.refl h) q _ 0 (by rwa [Nat.zero_add])).bind fun _ _ hk => hk

theorem pipeFill_quiet (h : Quiet sb k k') (p : Fin nproc) (q : Nat) (addr : UInt64) (mem : UInt64 → UInt8)
    (n i : Nat) : wp (pipeFill p q addr mem n i) (fun _ k'' => Quiet sb k k'') IoPanic k' := by
  induction n generalizing i k' with
  | zero => exact h
  | succ n ih =>
      simp only [pipeFill, pipe, wp_bind, wp_gets]
      refine wp_ite.mpr ⟨fun _ => ?_, fun _ => ?_⟩
      · simp only [proc, wp_bind, wp_gets]
        exact wp_ite.mpr ⟨fun _ => h, fun _ => .inl rfl⟩
      · simp only [setPipe, wp_bind, wp_update]
        apply ih _ (i + 1)
        apply h.setPipe
        exact fun _ => rfl

theorem pipewrite_quiet (h : Between sb k) (p : Fin nproc) (q : Nat) (addr : UInt64) (mem : UInt64 → UInt8)
    (n : Int32) :
    wp (pipewrite p q addr mem n) (fun _ k' => Quiet sb k k') IoPanic k :=
  (pipeFill_quiet (.refl h) p q addr mem _ 0).bind fun _ _ hk => wp_ite.mpr ⟨fun _ => hk, fun _ => hk⟩

theorem ilock_quiet (h : Between sb k) (hq : Quiet sb k k') (hf : (k.ftable f).type = .inode) :
    wp (fsM (Fs.ilock sb (k'.ftable f).ip)) (fun _ k'' => Quiet sb k k'' ∧ k''.ftable = k'.ftable ∧
      (k''.fs.icache (k'.ftable f).ip).valid = true) IoPanic k' := by
  obtain ⟨off, he⟩ := hq.files f
  have hip : (k'.ftable f).ip = (k.ftable f).ip := by rw [he]
  have hpos : 0 < opens k.ftable (k.ftable f).ip := opens_pos hf
  have hlive : (Fs.tree sb k'.fs.disk (inums k.fs (k.ftable f).ip)).type ≠ 0 := by
    rw [show Fs.tree sb k'.fs.disk = k.tree sb from hq.tree]
    exact (h.kept.sound f hf).1
  rw [hip]
  refine wp_fsM.mpr <| (ilock_base hq.held (by dsimp only [refs]; omega) hlive).mono (fun _ t ⟨ht, hd, hv⟩ =>
    ?_) fun _ => False.elim
  exact ⟨hq.setFs ht (by rw [hd]; exact hq.tree), rfl, hv⟩

theorem iunlock_quiet (hq : Quiet sb k k') (hf : (k.ftable f).type = .inode) {ip : Fin ninode}
    (hip : ip = (k.ftable f).ip) : wp (fsM (Fs.iunlock ip)) (fun _ k'' => k'' = k') IoPanic k' := by
  have hpos : 0 < opens k.ftable (k.ftable f).ip := opens_pos hf
  have hborrow := hq.held.borrow (i := ip) (l := false) (by rw [hip]; dsimp only [refs]; omega) nofun
  have hlock : wp (Fs.iunlock ip) (fun _ t => t = k'.fs) (fun _ => False) k'.fs :=
    Fs.iunlock_held hborrow List.mem_cons_self
  refine wp_fsM.mpr <| hlock.mono (fun _ t ht => ?_) fun _ => False.elim
  rw [ht]

theorem stati_same {st : UInt64} (ip : Fs.Inode) (h : UserPtr (k.ptable p).sz st 20) (hq : k'.ptable = k.ptable) :
    wp (stati p ip st) (fun _ k'' => k'' = k') IoPanic k' := by
  have hfield {o : UInt64} {w v : Nat} (ho : o.toNat + w ≤ 20) :
      wp (storeBytes p (st + o) (leBytes w v)) (fun _ k'' => k'' = k') IoPanic k' :=
    storeBytes_same (by rw [length_leBytes]; exact h.sub ho) hq
  have htype : wp (storeBytes p st (leBytes 2 ip.type.toUInt16.toNat)) (fun _ k'' => k'' = k') IoPanic k' := by
    simpa using hfield (o := 0) (w := 2) (v := ip.type.toUInt16.toNat) (by decide)
  refine (hfield (by decide)).bind fun _ k₁ hk₁ => ?_
  rw [hk₁]
  refine (hfield (by decide)).bind fun _ k₂ hk₂ => ?_
  rw [hk₂]
  refine htype.bind fun _ k₃ hk₃ => ?_
  rw [hk₃]
  refine (hfield (by decide)).bind fun _ k₄ hk₄ => ?_
  rw [hk₄]
  exact hfield (by decide)

theorem filestat_quiet (h : Between sb k) (f : Fin nfile) {st : UInt64} (hptr : UserPtr (k.ptable p).sz st 20) :
    wp (filestat sb p f st) (fun _ k' => Quiet sb k k') IoPanic k := by
  simp only [filestat, file, wp_bind, wp_gets]
  refine wp_ite.mpr ⟨fun hf => ?_, fun _ => .refl h⟩
  refine (ilock_quiet h (.refl h) hf).bind ?_
  rintro _ k₁ ⟨h₁, -, -⟩
  refine wp_bind.mpr <| wp_fsM.mpr ?_
  refine (stati_same _ hptr h₁.procs).bind fun _ k₂ hk₂ => ?_
  rw [hk₂]
  exact (iunlock_quiet h₁ hf rfl).bind fun _ k₃ hk₃ => by rw [hk₃]; exact h₁

theorem fileread_quiet [Fs.Devsw] (h : Between sb k) (f : Fin nfile) {addr : UInt64} {n : Int32}
    (hptr : UserPtr (k.ptable p).sz addr n.toUInt32.toNat) :
    wp (fileread sb p f addr n) (fun _ k' => Quiet sb k k') IoPanic k := by
  simp only [fileread, file, wp_bind, wp_gets]
  refine wp_ite.mpr ⟨fun _ => .refl h, fun _ => ?_⟩
  split
  next => exact piperead_quiet h _ (hptr.le (toNat_toInt_le n))
  next hf =>
    refine (ilock_quiet h (.refl h) hf).bind ?_
    rintro _ k₁ ⟨h₁, hft₁, hv₁⟩
    have hpos : 0 < opens k.ftable (k.ftable f).ip := opens_pos hf
    have hborrow : Fs.Held sb _ _ (⟨(k.ftable f).ip, _, true⟩ :: []) k₁.fs :=
      h₁.held.borrow (by dsimp only [refs]; omega) fun _ => hv₁
    have hread : wp (Fs.readi sb (k.ftable f).ip (k.ftable f).off n.toUInt32)
        (fun r t => t = k₁.fs ∧ r.2.length ≤ n.toUInt32.toNat) (fun e => e = .asleep) k₁.fs :=
      readi_held hborrow List.mem_cons_self rfl _ _
    refine wp_bind.mpr <| wp_fsM.mpr <| hread.mono ?_ fun e he => .inl he
    rintro r t ⟨ht, hlen⟩
    rw [ht]
    refine (storeBytes_same (hptr.le hlen) h₁.procs).bind fun _ k₂ hk₂ => ?_
    rw [hk₂]
    simp only [wp_bind, wp_gets]
    have hx : k₁.ftable f = k.ftable f := by rw [hft₁]
    have hend {k₃ : State} (h₃ : Quiet sb k k₃) :
        wp (do fsM (Fs.iunlock (k₁.ftable f).ip); pure r.1) (fun _ k' => Quiet sb k k') IoPanic k₃ :=
      (iunlock_quiet h₃ hf (by rw [hx])).bind fun _ k₄ hk₄ => by rw [hk₄]; exact h₃
    exact wp_ite.mpr ⟨fun _ => hend (h₁.setOff f _), fun _ => hend h₁⟩
  next => exact .inr (.inr (.inr (.inl rfl)))

theorem writeLoop_quiet [Fs.Devsw] (h : Between sb k) (hf : (k.ftable f).type = .inode)
    (hw : (k.ftable f).writable = true)
    (hq : Quiet sb k k') (addr : UInt64) (mem : UInt64 → UInt8) (n fuel i : Nat) :
    wp (writeLoop sb f addr mem n fuel i) (fun _ k'' => Quiet sb k k'') IoPanic k' := by
  have hpos : 0 < opens k.ftable (k.ftable f).ip := opens_pos hf
  induction fuel generalizing i k' with
  | zero => exact hq
  | succ fuel ih =>
      refine wp_ite.mpr ⟨fun _ => ?_, fun _ => hq⟩
      simp only [file, wp_bind, wp_gets]
      obtain ⟨off, he⟩ := hq.files f
      have hip : (k'.ftable f).ip = (k.ftable f).ip := by rw [he]
      refine (ilock_quiet h hq hf).imp ?_
      rintro _ k₁ ⟨h₁, hft₁, hv₁⟩
      rw [hip] at hv₁ ⊢
      have hdir : (Fs.tree sb k₁.fs.disk (inums k.fs (k.ftable f).ip)).type ≠ Fs.tDir := by
        rw [show Fs.tree sb k₁.fs.disk = k.tree sb from h₁.tree]
        exact (h.kept.sound f hf).2 hw
      have hwrite := writei_base h₁.held (by dsimp only [refs]; omega) hv₁ hdir
        (fun j => mem (addr + UInt64.ofNat (i + j))) (k'.ftable f).off
          (UInt32.ofNat (min (n - i) Fs.SharedWrite.maxChunk))
      refine wp_bind.mpr <| wp_fsM.mpr <| hwrite.mono ?_ fun e he => he.imp id .inl
      rintro r t ⟨ht, htree⟩
      have h₂ := h₁.setFs ht (htree.trans h₁.tree)
      have hend {k₃ : State} (h₃ : Quiet sb k k₃) : wp (do
          fsM (Fs.iunlock (k.ftable f).ip)
          if r < 0 then pure i
          else if r ≠ (min (n - i) Fs.SharedWrite.maxChunk : Nat) then panic .shortFilewrite
          else writeLoop sb f addr mem n fuel (i + min (n - i) Fs.SharedWrite.maxChunk))
            (fun _ k' => Quiet sb k k') IoPanic k₃ := by
        refine (iunlock_quiet h₃ hf rfl).bind fun _ k₄ hk₄ => ?_
        rw [hk₄]
        exact wp_ite.mpr ⟨fun _ => h₃, fun _ => wp_ite.mpr ⟨fun _ => .inr (.inr (.inl rfl)), fun _ => ih h₃ _⟩⟩
      refine wp_ite.mpr ⟨fun _ => ?_, fun _ => hend h₂⟩
      have hx : k₁.ftable f = k'.ftable f := by rw [hft₁]
      have h₃ := h₂.setOff f ((k'.ftable f).off + UInt32.ofNat r.toNat)
      dsimp only at h₃
      rw [hx, hip] at h₃
      exact hend h₃

theorem filewrite_quiet [Fs.Devsw] (h : Between sb k) (p : Fin nproc) (f : Fin nfile) (addr : UInt64)
    (mem : UInt64 → UInt8) (n : Int32) : wp (filewrite sb p f addr mem n)
    (fun _ k' => Quiet sb k k') IoPanic k := by
  simp only [filewrite, file, wp_bind, wp_gets]
  refine wp_ite.mpr ⟨fun _ => .refl h, fun hw => ?_⟩
  split
  next => exact pipewrite_quiet h p _ addr mem n
  next hf =>
    have hloop := writeLoop_quiet h hf (Bool.not_eq_false _ ▸ hw) (.refl h) addr mem n.toInt.toNat n.toInt.toNat 0
    exact hloop.bind fun i k' hk' => wp_ite.mpr ⟨fun _ => hk', fun _ => hk'⟩
  next => exact .inr (.inr (.inr (.inr rfl)))

theorem argfd_quiet {m : Fin nfile → KM Int} (h : Between sb k) (p : Fin nproc) (fd : Int)
    (hm : ∀ f, wp (m f) (fun _ k' => Quiet sb k k') IoPanic k) :
    wp (do
      match ← argfd p fd with
      | none => pure (-1)
      | some (_, f) => m f) (fun _ k' => Quiet sb k k') IoPanic k := by
  refine ((argfd_spec p fd).and_safe (argfd_total p fd)).andThen fun r k₀ ⟨⟨hk, _⟩, _⟩ => ?_
  rw [hk]
  cases r with
  | none => exact .refl h
  | some r => exact hm r.2

theorem sysRead_quiet [Fs.Devsw] (h : Between sb k) (fd : Int) {arg junk : UInt64} {n : Int32}
    (hptr : UserPtr (k.ptable p).sz (argptr (k.ptable p).sz arg junk n).2 n.toUInt32.toNat) :
    wp (sysRead sb p fd arg junk n) (fun _ k' => Quiet sb k k') IoPanic k := by
  refine argfd_quiet h p fd fun f => ?_
  simp only [proc, wp_bind, wp_gets]
  exact wp_ite.mpr ⟨fun _ => .refl h, fun _ => fileread_quiet h f hptr⟩

theorem sysWrite_quiet [Fs.Devsw] (h : Between sb k) (p : Fin nproc) (fd : Int) (arg junk : UInt64)
    (mem : UInt64 → UInt8)
    (n : Int32) : wp (sysWrite sb p fd arg junk mem n) (fun _ k' => Quiet sb k k') IoPanic k := by
  refine argfd_quiet h p fd fun f => ?_
  simp only [proc, wp_bind, wp_gets]
  exact wp_ite.mpr ⟨fun _ => .refl h, fun _ => filewrite_quiet h p f _ mem n⟩

theorem sysFstat_quiet (h : Between sb k) (fd : Int) {arg junk : UInt64}
    (hptr : UserPtr (k.ptable p).sz (argptr (k.ptable p).sz arg junk 20).2 20) :
    wp (sysFstat sb p fd arg junk) (fun _ k' => Quiet sb k k') IoPanic k := by
  refine argfd_quiet h p fd fun f => ?_
  simp only [proc, wp_bind, wp_gets]
  exact wp_ite.mpr ⟨fun _ => .refl h, fun _ => filestat_quiet h f hptr⟩

end Specs

end Xv6.Kernel
