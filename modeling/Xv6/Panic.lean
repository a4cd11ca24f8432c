namespace Xv6

/-- The panics of the file system, of the file and process tables and of the memory. -/
inductive Panic
  | ballocOutOfBlocks
  | freeingFreeBlock
  | iallocNoInodes
  | igetNoInodes
  | ilock
  | ilockNoType
  | iunlock
  | bmapOutOfRange
  | dirlookupNotDir
  | dirlookupRead
  | dirlinkRead
  | dirlink
  | isdirempty
  | unlinkNlink
  | unlinkWritei
  | createDots
  | createDirlink
  | filedup
  | fileclose
  | fileread
  | filewrite
  | shortFilewrite
  | initExiting
  | outOfMemory
  | loaduvmAligned
  | loaduvmExist
  | kfree
  | remap
  | freevm
  | clearpteu
  | copyuvmExist
  | copyuvmPresent
  | userinit
  | trap
  deriving DecidableEq, Repr

/-- How a call can fail to return: the kernel panics, the process sleeps for ever, or the kernel stores where
no variable of the model is, so that all may follow. -/
inductive Halt
  | panic (p : Panic)
  | asleep
  | wild
  deriving DecidableEq, Repr

end Xv6
