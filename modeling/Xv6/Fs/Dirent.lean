import Xv6.Fs.Content
import Xv6.Lib.Cstr

namespace Xv6.Fs

open Lib Lib.Bytes Lib.Cstr

structure Dirent where
  inum : UInt16
  name : List UInt8
  deriving DecidableEq

namespace Dirent

def of (inum : UInt16) (name : List UInt8) : Dirent := ⟨inum, strncpy dirsiz name⟩

def zero : Dirent := ⟨0, List.replicate dirsiz 0⟩

def bytes (de : Dirent) : List UInt8 := leBytes 2 de.inum.toNat ++ de.name

def ofBytes (l : List UInt8) : Dirent := ⟨UInt16.ofNat (field l 0 2), (l.drop 2).take dirsiz⟩

theorem ofBytes_bytes (de : Dirent) (h : de.name.length = dirsiz) : ofBytes de.bytes = de := by
  obtain ⟨inum, name⟩ := de
  have hi : UInt16.ofNat (inum.toNat % 256 ^ 2) = inum := by
    rw [Nat.mod_eq_of_lt (by simpa using inum.toNat_lt)]
    simp
  simp only [ofBytes, bytes, Dirent.mk.injEq]
  refine ⟨?_, ?_⟩
  · rw [field_append_left (by simp), field_leBytes, hi]
  · rw [List.drop_left' (length_leBytes ..), List.take_of_length_le (Nat.le_of_eq h)]

theorem length_bytes (de : Dirent) (h : de.name.length = dirsiz) : de.bytes.length = 16 := by
  rw [bytes, List.length_append, length_leBytes, h]
  rfl

end Dirent

def namecmp (s t : List UInt8) : Int := strncmp dirsiz s t

def Dirent.text (de : Dirent) : List UInt8 := Cstr.text dirsiz de.name

theorem Dirent.text_of (inum : UInt16) (name : List UInt8) : (Dirent.of inum name).text = Cstr.text dirsiz name :=
  text_strncpy dirsiz name

def dirent (d : Disk) (x : Dinode) (k : Nat) : Dirent :=
  .ofBytes ((List.range 16).map fun j => fileByte d x (16 * k + j))

theorem dirent_congr {d d' : Disk} {x y : Dinode} {k : Nat}
    (h : ∀ j, j < 16 → fileByte d' y (16 * k + j) = fileByte d x (16 * k + j)) : dirent d' y k = dirent d x k := by
  rw [dirent, dirent, List.map_congr_left fun j hj => h j (List.mem_range.mp hj)]

theorem dirent_of_bytes {d : Disk} {x : Dinode} {k : Nat} (de : Dirent) (hde : de.name.length = dirsiz)
    (h : ∀ j, j < 16 → fileByte d x (16 * k + j) = de.bytes.getD j 0) : dirent d x k = de := by
  have hlen := de.length_bytes hde
  have hl : (List.range 16).map (fun j => fileByte d x (16 * k + j)) = de.bytes := by
    apply List.ext_getElem
    · simp [hlen]
    · intro j hj hj'
      simp only [List.getElem_map, List.getElem_range]
      rw [h j (hlen ▸ hj'), List.getD_eq_getElem _ _ hj']
  rw [dirent, hl, Dirent.ofBytes_bytes de hde]

theorem dirent_inum_zero {d : Disk} {x : Dinode} {k : Nat} (h : ∀ j, j < 16 → fileByte d x (16 * k + j) = 0) :
    (dirent d x k).inum = 0 := by
  have hz : Dirent.zero.bytes = List.replicate 16 0 := by decide
  have := dirent_of_bytes (d := d) (x := x) (k := k) .zero List.length_replicate fun j hj => by
    rw [h j hj, hz, List.getD_replicate 0 hj]
  rw [this, Dirent.zero]

def Dinode.slots (x : Dinode) : Nat := x.size.toNat / 16

end Xv6.Fs
