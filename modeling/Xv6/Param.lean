import Xv6.Lib.Bytes

namespace Xv6

open Lib.Bytes

abbrev bsize : Nat := 512

abbrev maxopblocks : Nat := 10

abbrev logsize : Nat := maxopblocks * 3

abbrev nbuf : Nat := maxopblocks * 3

abbrev fssize : Nat := 1000

abbrev ninode : Nat := 50

abbrev ndirect : Nat := 12

abbrev nindirect : Nat := bsize / 4

abbrev maxfile : Nat := ndirect + nindirect

abbrev ipb : Nat := bsize / 64

abbrev bpb : Nat := bsize * 8

abbrev ndev : Nat := 10

abbrev rootdev : Nat := 1

abbrev rootino : Nat := 1

abbrev dirsiz : Nat := 14

abbrev nproc : Nat := 64

abbrev nofile : Nat := 16

abbrev nfile : Nat := 100

abbrev pipesize : Nat := 512

abbrev pgsize : Nat := 4096

abbrev kernbase : UInt64 := 0xFFFF800000000000

-- The library's instances under names of their own, for the literals of these types.
instance : NeZero ninode := inferInstance

instance : NeZero nproc := inferInstance

instance : NeZero nofile := inferInstance

instance : NeZero nfile := inferInstance

instance : NeZero pipesize := inferInstance

instance neZeroTwo : NeZero 2 := inferInstance

instance neZeroThree : NeZero 3 := inferInstance

abbrev Block := Buf bsize

abbrev Disk := Nat → Block

end Xv6
