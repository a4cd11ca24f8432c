import Xv6.Kernel.Boot
import Xv6.Machine.Exec

namespace Xv6.Machine

open Lib Lib.Bytes Lib.Exec Vm

/-- The segment is aligned, there is a table for its first page, and its bytes are in the file: `exec` goes on
to the next program header. -/
def Proghdr.Loads (ph : Proghdr) (x : File) (sz : Nat) : Prop :=
  ph.vaddr % 4096 = 0 ∧ ¬ (ph.AtZero ∧ sz ≤ 4096) ∧ (ph.length = 0 ∨ ph.offset + ph.length ≤ x.size)

instance (ph : Proghdr) (x : File) (sz : Nat) : Decidable (ph.Loads x sz) := inferInstanceAs (Decidable (_ ∧ _ ∧ _))

/-- Every segment that `exec` comes to and allocates meets `check`, with the size of the image then; if it comes
to the end of the program headers, the size meets `final`. -/
def Throughout (x : File) (check : Proghdr → Nat → Prop) (final : Nat → Prop) : (n off sz : Nat) → Prop
  | 0, _, sz => final sz
  | n + 1, off, sz =>
      let ph := x.proghdr off
      off + 56 ≤ x.size →
        (ph.type ≠ 1 → Throughout x check final n (off + 56) sz) ∧
          (ph.type = 1 → ph.Accepted → check ph (ph.top sz) ∧
            (ph.Loads x (ph.top sz) → Throughout x check final n (off + 56) (ph.top sz)))

instance Throughout.decidable (x : File) (check : Proghdr → Nat → Prop) [∀ ph sz, Decidable (check ph sz)]
    (final : Nat → Prop) [DecidablePred final] : (n off sz : Nat) → Decidable (Throughout x check final n off sz)
  | 0, _, sz => inferInstanceAs (Decidable (final sz))
  | n + 1, off, sz =>
      have := Throughout.decidable x check final n (off + 56) ((x.proghdr off).top sz)
      have := Throughout.decidable x check final n (off + 56) sz
      inferInstanceAs (Decidable (_ → (_ → _) ∧ (_ → _ → _ ∧ (_ → _))))

variable {x : File} {room : Nat} {final : Nat → Prop}

theorem throughout_congr {check check' : Proghdr → Nat → Prop} (h : ∀ ph sz, check ph sz ↔ check' ph sz)
    {n off sz : Nat} :
    Throughout x check final n off sz ↔ Throughout x check' final n off sz := by
  induction n generalizing off sz with
  | zero => rfl
  | succ n ih => simp only [Throughout, h, ih]

/-- What is asked of the end of the loop over the program headers: `ok` of the stores, `e` if a panic for a
missing page is all right, and `final` of the size. -/
structure Asks (ok : Bool → Prop) (e : Prop) (final : Nat → Prop) (Good : Loading → Prop) : Prop where
  stop : ∀ sz a, Good (.stop sz a) ↔ ok a
  done : ∀ sz a, Good (.done sz a) ↔ ok a ∧ final sz
  outOfMemory : ¬ Good (.halt .outOfMemory)
  loaduvmExist : Good (.halt .loaduvmExist) ↔ e
  any : e → ∀ a, ok a
  mono : ∀ a b, ok (a || b) ↔ ok a ∧ ok b

def Asked (x : File) (room : Nat) (ok : Bool → Prop) (e : Prop) (ph : Proghdr) (sz : Nat) : Prop :=
  imagePages (pagesOf sz) ≤ room ∧ (ph.AtZero → (sz ≤ 4096 → e) ∧ (4096 < sz → ph.offset < x.size → ok true))

theorem segments_iff {ok : Bool → Prop} {e : Prop} {Good : Loading → Prop} (h : Asks ok e final Good)
    (hfalse : ok false)
    {n off sz : Nat} {a : Bool} :
    Good (segments x room n off sz a) ↔ ok a ∧ Throughout x (Asked x room ok e) final n off sz := by
  induction n generalizing off sz a with
  | zero => exact h.done sz a
  | succ n ih =>
      rw [segments, Throughout]
      set ph := x.proghdr off
      by_cases hin : x.size < off + 56
      · rw [if_pos hin, h.stop]
        exact ⟨fun ho => ⟨ho, fun hle => absurd hle (by omega)⟩, And.left⟩
      · rw [if_neg hin, forall_prop_of_true (show off + 56 ≤ x.size by omega)]
        by_cases htype : ph.type = 1
        · rw [if_neg (not_not.mpr htype)]
          simp only [htype, ne_eq, not_true_eq_false, false_implies, forall_const, true_and]
          by_cases hacc : ph.Accepted
          · rw [if_neg (not_not.mpr hacc), forall_prop_of_true hacc, Asked]
            by_cases hroom : room < imagePages (pagesOf (ph.top sz))
            · rw [if_pos hroom]
              exact iff_of_false h.outOfMemory fun hc => absurd hc.2.1.1 (by omega)
            · have hfits : imagePages (pagesOf (ph.top sz)) ≤ room := by omega
              rw [if_neg hroom]
              by_cases halign : ph.vaddr % 4096 = 0
              · rw [if_neg (not_not.mpr halign)]
                by_cases hz : ph.AtZero ∧ ph.top sz ≤ 4096
                · rw [if_pos hz, h.loaduvmExist]
                  refine ⟨fun he => ⟨h.any he a, ⟨hfits, fun _ => ⟨fun _ => he, fun hlt => absurd hlt (by omega)⟩⟩,
                    fun hl => absurd hz hl.2.1⟩, fun hc => (hc.2.1.2 hz.1).1 hz.2⟩
                · rw [if_neg hz]
                  have hstray : (ph.AtZero → (ph.top sz ≤ 4096 → e) ∧ (4096 < ph.top sz → ph.offset < x.size →
                    ok true)) ↔
                      ok (decide (ph.AtZero ∧ ph.offset < x.size)) := by
                    by_cases hat : ph.AtZero
                    · have hlt : 4096 < ph.top sz := by
                        by_contra hle
                        exact hz ⟨hat, by omega⟩
                      by_cases ho : ph.offset < x.size
                      · simp [hat, ho, hlt, not_le.mpr hlt]
                      · simp [hat, ho, hfalse, not_le.mpr hlt]
                    · simp [hat, hfalse]
                  by_cases hall : ph.length = 0 ∨ ph.offset + ph.length ≤ x.size
                  · have hloads : ph.Loads x (ph.top sz) := ⟨halign, hz, hall⟩
                    rw [if_pos hall, ih, h.mono, ← hstray]
                    simp only [hfits, hloads, true_and, forall_const, and_assoc]
                  · have hno : ¬ ph.Loads x (ph.top sz) := fun hl => hall hl.2.2
                    rw [if_neg hall, h.stop, h.mono, ← hstray]
                    simp only [hfits, hno, true_and, false_implies, and_true]
              · have hno : ¬ ph.Loads x (ph.top sz) := fun hl => halign hl.1
                have hnz : ¬ ph.AtZero := fun hz => halign (by rw [hz.1])
                rw [if_pos halign, h.stop]
                simp only [hfits, hnz, hno, false_implies, and_true]
          · rw [if_pos hacc, h.stop]
            simp only [hacc, false_implies, and_true]
        · simp only [htype, ne_eq, not_false_eq_true, if_true, forall_const, false_implies, and_true]
          exact ih

def Startable (room : Nat) (argv : List Arg) (sz : Nat) : Prop :=
  imagePages (pagesOf sz + 2) ≤ room ∧ ArgsFit ((pagesOf sz + 1) * 4096) argv 0 ((pagesOf sz + 2) * 4096)

instance (room : Nat) (argv : List Arg) : DecidablePred (Startable room argv) :=
  fun _ => inferInstanceAs (Decidable (_ ∧ _))

/-- There are free pages for all that `exec` allocates, no bytes of the file are for virtual page 0, and the
arguments fit. -/
def Loadable (x : File) (room : Nat) (argv : List Arg) : Prop :=
  x.IsElf → 0 < room ∧ Throughout x
    (fun ph sz => imagePages (pagesOf sz) ≤ room ∧ (ph.AtZero → 4096 < sz ∧ x.size ≤ ph.offset))
    (Startable room argv) x.phnum x.phoff 4096

instance (x : File) (room : Nat) (argv : List Arg) : Decidable (Loadable x room argv) :=
  inferInstanceAs (Decidable (_ → _ ∧ _))

theorem outcome_ok_iff {argv : List Arg} : outcome x room argv = .ok false ↔ Loadable x room argv := by
  rw [outcome, Loadable]
  by_cases helf : x.IsElf
  · rw [if_neg (not_not.mpr helf), forall_prop_of_true helf]
    by_cases hroom : room = 0
    · simp [hroom]
    · rw [if_neg hroom]
      have hasks : Asks (· = false) False (Startable room argv) fun L => finish room argv L = .ok false := by
        refine ⟨fun sz a => by simp [finish], fun sz a => ?_, by simp [finish], by simp [finish],
          False.elim, by simp⟩
        simp only [finish, Startable]
        split
        next hlt => simp [hlt]
        next hle =>
          split
          next hfit => simp [hfit, not_lt.mp hle]
          next hfit => simp [hfit]
      rw [segments_iff hasks rfl, and_iff_right rfl, and_iff_right (Nat.pos_of_ne_zero hroom)]
      refine throughout_congr fun ph sz => and_congr_right fun _ => imp_congr_right fun _ => ?_
      constructor
      · rintro ⟨htable, hstray⟩
        have hlt : 4096 < sz := not_le.mp htable
        exact ⟨hlt, not_lt.mp fun ho => absurd (hstray hlt ho) (by decide)⟩
      · rintro ⟨hlt, hsize⟩
        exact ⟨fun hle => absurd hlt (not_lt.mpr hle), fun _ ho => absurd ho (not_lt.mpr hsize)⟩
  · simp [helf]

section

variable [Fs.Devsw] {kend : Nat} {sb : Fs.Layout} {p : Fin nproc} {ip : Fin ninode} {s : State} {pool : Finset Nat}
  {path : List UInt8} {argv : List Arg} {fs : Fs.State}

/-- `exec` returns, and it stores file bytes only in pages that it has taken from the free list. -/
def Safe (kend : Nat) (sb : Fs.Layout) (p : Fin nproc) (path : List UInt8) (argv : List Arg) (s : State) : Prop :=
  ∃ r s' w, exec kend sb p path argv s = .ok (r, s') ∧ (r = 0 ∨ r = -1) ∧ s'.stores = w ++ s.stores ∧
    ∀ v ∈ w, v.Fine s.mem.freelist

theorem exec_ends (argv : List Arg) (hk : 0 < kend) (h : Placed kend pool s) (hpd : (s.pgdir p).isSome)
    (hopen : Opens sb p path s ip fs) :
    Ends s.mem.freelist s.stores (outcome (fileOf fs ip) s.mem.freelist.length argv)
      (exec kend sb p path argv s) := by
  obtain ⟨told, hpd⟩ := Option.isSome_iff_exists.mp hpd
  have hf := h.frames hpd
  rw [exec_eq_execFile hopen]
  refine execFile_eq (s := s.setFs fs) hk hopen.toOpened ?_ (fun g hg => hf.pool g ?_) hpd fun g hg =>
    hf.pool g (by omega)
  · exact List.nodup_iff_count_le_one.mpr fun g => by
      have := hf.once g
      show s.mem.freelist.count g ≤ 1
      omega
  · have : 0 < s.mem.freelist.count g := List.count_pos_iff.mpr hg
    omega

theorem exec_safe_iff (hk : 0 < kend) (h : Placed kend pool s) (hpd : (s.pgdir p).isSome)
    (hopen : Opens sb p path s ip fs) :
    Safe kend sb p path argv s ↔ Loadable (fileOf fs ip) s.mem.freelist.length argv := by
  rw [← outcome_ok_iff]
  have hends := exec_ends argv hk h hpd hopen
  cases ho : outcome (fileOf fs ip) s.mem.freelist.length argv with
  | error e =>
      rw [ho] at hends
      have hexec : exec kend sb p path argv s = .error (.panic e) := hends
      refine iff_of_false ?_ nofun
      rintro ⟨r, s', w, hr, -⟩
      rw [hexec] at hr
      cases hr
  | ok astray =>
      rw [ho] at hends
      obtain ⟨r, s', w, hexec, hr, hst, hw⟩ := hends
      rw [Except.ok.injEq, hw]
      constructor
      · rintro ⟨r', s'', w', hexec', -, hst', hw'⟩
        rw [hexec] at hexec'
        cases hexec'
        rwa [List.append_cancel_right (hst.symm.trans hst')]
      · exact fun hfine => ⟨r, s', w, hexec, hr, hst, hfine⟩

end

section Examples

attribute [local instance] Fs.noDevices

/-- An ELF file with one program header. -/
def elf (vaddr filesz memsz : Nat) : List UInt8 :=
  leBytes 4 0x464C457F ++ List.replicate 28 0 ++ leBytes 8 64 ++ List.replicate 16 0 ++ leBytes 2 1 ++
    List.replicate 6 0 ++ leBytes 4 1 ++ leBytes 4 0 ++ leBytes 8 0 ++ leBytes 8 vaddr ++ leBytes 8 0 ++
    leBytes 8 filesz ++ leBytes 8 memsz ++ leBytes 8 0

theorem length_elf (vaddr filesz memsz : Nat) : (elf vaddr filesz memsz).length = 120 := by
  simp [elf, length_leBytes]

/-- mkfs's image with one program, `a`. -/
def imageOf (vaddr filesz memsz : Nat) : Disk :=
  Kernel.mkfsImage [⟨[97], by decide, some [elf vaddr filesz memsz], by simp [length_elf, bsize]⟩]

theorem between_imageOf : Kernel.Between Mkfs.sb (Kernel.boot (imageOf 4096 1 8192)) :=
  Kernel.between_mkfsImage (by decide +kernel) (by decide +kernel) (by decide +kernel) (by decide +kernel)

theorem opens_of_between {sb : Fs.Layout} {s : State} {path : List UInt8} {c ip : Fin ninode} {fs fs' : Fs.State}
    (h : Kernel.Between sb s.kernel) (hc : (s.kernel.ptable 0).cwd = some c)
    (hname : Fs.namei sb c path s.kernel.fs = .ok (some ip, fs')) (hlock : Fs.ilock sb ip fs' = .ok ((), fs))
    (hreg : (fs.icache ip).type ≠ Fs.tDev) : Opens sb 0 path s ip fs := by
  have hpos : 0 < Kernel.refs s.kernel.ptable s.kernel c := Nat.add_pos_right _ (Kernel.cwds_pos hc)
  have hnamei := (wp_iff.mp (Fs.namei_held h.kept.held h.kept.shaped hpos h.root path)).1 _ _ hname
  have hheld : ∃ n, Fs.Held sb (Kernel.refs s.kernel.ptable s.kernel) (Kernel.inums s.kernel.fs)
      [⟨ip, n, false⟩] fs' := by
    obtain ⟨⟨-, hr⟩, -⟩ := hnamei
    split at hr
    next => cases hr.1
    next n _ =>
      obtain ⟨ip', hip, hheld⟩ := hr
      cases hip
      exact ⟨n, hheld⟩
  obtain ⟨n, hheld⟩ := hheld
  obtain ⟨hlocked, -⟩ := (wp_iff.mp (Fs.ilock_held hheld)).1 _ _ hlock
  have hmem : (⟨ip, n, true⟩ : Fs.Hold) ∈ [(⟨ip, n, true⟩ : Fs.Hold)] := List.mem_singleton_self _
  exact ⟨⟨hlocked.consistent, hlocked.ref_pos hmem, (hlocked.held _ hmem).2 rfl, hreg⟩, c, fs', hc, hname, hlock⟩

/-- `a` is an ELF file that `exec` can load from this state. -/
def loadsProgram (s : State) : Bool :=
  (s.pgdir 0).isSome && decide ((s.kernel.ptable 0).cwd = some 0) &&
    (Fs.namei Mkfs.sb 0 [97] s.kernel.fs).toOption.any fun q => decide (q.1 = some 1) &&
      (Fs.ilock Mkfs.sb 1 q.2).toOption.any fun l => decide ((l.2.icache 1).type ≠ Fs.tDev ∧
        (fileOf l.2 1).IsElf ∧ Loadable (fileOf l.2 1) s.mem.freelist.length [])

theorem opens_of_loadsProgram {s : State} (h : Kernel.Between Mkfs.sb s.kernel) (hs : loadsProgram s = true) :
    (s.pgdir 0).isSome ∧ ∃ ip fs, Opens Mkfs.sb 0 [97] s ip fs ∧ (fileOf fs ip).IsElf ∧
      Loadable (fileOf fs ip) s.mem.freelist.length [] := by
  simp only [loadsProgram, Bool.and_eq_true, decide_eq_true_eq] at hs
  obtain ⟨⟨hpd, hc⟩, hname⟩ := hs
  obtain ⟨_, fs', hname, hrest⟩ := ok_of_any hname
  simp only [Bool.and_eq_true, decide_eq_true_eq] at hrest
  obtain ⟨rfl, hlock⟩ := hrest
  obtain ⟨⟨⟩, fs, hlock, hload⟩ := ok_of_any hlock
  obtain ⟨hreg, helf, hload⟩ := of_decide_eq_true hload
  exact ⟨hpd, 1, fs, opens_of_between h hc hname hlock hreg, helf, hload⟩

/-- A program with a page of its own above page 0. -/
theorem exec_safe_iff_program :
    ∃ s ip fs, userinit (bare (imageOf 4096 1 8192) (List.range' 16 40)) = .ok ((), s) ∧
      Opens Mkfs.sb 0 [97] s ip fs ∧ (fileOf fs ip).IsElf ∧ Safe 16 Mkfs.sb 0 [97] [] s := by
  have hany : (userinit (bare (imageOf 4096 1 8192) (List.range' 16 40))).toOption.any
      fun r => loadsProgram r.2 := by decide +kernel
  obtain ⟨u, s, hs, hrun⟩ := ok_of_any hany
  have hplaced : Placed 16 (List.range' 16 40).toFinset s :=
    (wp_iff.mp (userinit_placed List.nodup_range' (by decide))).1 _ _ hs
  have hbetween : Kernel.Between Mkfs.sb s.kernel := by
    rw [userinit_boot hs]
    exact between_imageOf
  obtain ⟨hpd, ip, fs, hopens, helf, hload⟩ := opens_of_loadsProgram hbetween hrun
  exact ⟨s, ip, fs, hs, hopens, helf, (exec_safe_iff (by decide) hplaced hpd hopens).mpr hload⟩

/-- A byte for virtual address 0 is stored in physical page 0, which the kernel never had free. -/
theorem exec_page_zero :
    ∃ s, userinit (bare (imageOf 0 1 8192) (List.range' 16 40)) = .ok ((), s) ∧
      ¬ Safe 16 Mkfs.sb 0 [97] [] s := by
  obtain ⟨⟨⟩, s, hs, hrun⟩ :=
    ok_of_any (m := userinit) (s := bare (imageOf 0 1 8192) (List.range' 16 40))
    (p := fun r => r.2.stores.isEmpty && decide (0 ∉ r.2.mem.freelist) &&
      (exec 16 Mkfs.sb 0 [97] [] r.2).toOption.any fun q => q.2.stores.any fun v => v.page = 0) (by decide +kernel)
  rw [Bool.and_eq_true, Bool.and_eq_true] at hrun
  obtain ⟨⟨hnone, hzero⟩, hexec⟩ := hrun
  obtain ⟨r, s', hs', hany⟩ := ok_of_any hexec
  refine ⟨s, hs, ?_⟩
  rintro ⟨r', s'', w, hr, -, hst, hfine⟩
  rw [hs'] at hr
  cases hr
  rw [List.isEmpty_iff.mp hnone, List.append_nil] at hst
  obtain ⟨v, hv, hpage⟩ := List.any_eq_true.mp hany
  have hin := (hfine v (hst ▸ hv)).1
  rw [of_decide_eq_true hpage] at hin
  exact of_decide_eq_true hzero hin

end Examples

end Xv6.Machine
