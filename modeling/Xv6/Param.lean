/-!
# Kernel parameters

The constants of `param.h`, `fs.h` and `stat.h`.
-/

namespace Xv6

/-- `BSIZE`: bytes in a block. -/
abbrev bsize : Nat := 512

/-- `MAXOPBLOCKS`: the most blocks one file-system operation writes. -/
abbrev maxOpBlocks : Nat := 10

/-- `LOGSIZE`: the number of blocks a log header can name. -/
abbrev logSize : Nat := maxOpBlocks * 3

/-- `NPROC`: the number of processes. -/
abbrev nproc : Nat := 64

/-- `NOFILE`: open files per process. -/
abbrev nofile : Nat := 16

/-- `NFILE`: open files in the system. -/
abbrev nfile : Nat := 100

/-- `NINODE`: slots of the inode cache. -/
abbrev ninode : Nat := 50

/-- `NDEV`: one more than the largest major device number. -/
abbrev ndev : Nat := 10

/-- `ROOTINO`: the inode number of the root directory. -/
abbrev rootino : Nat := 1

/-- `NDIRECT`: the direct block addresses of an inode. -/
abbrev ndirect : Nat := 12

/-- `NINDIRECT`: the block addresses in an indirect block, `BSIZE / sizeof(uint)`. -/
abbrev nindirect : Nat := 128

/-- `MAXFILE`: the most blocks of a file, `NDIRECT + NINDIRECT`. -/
abbrev maxfile : Nat := 140

/-- `sizeof(struct dinode)` -/
abbrev dinodeSize : Nat := 64

/-- `IPB`: inodes in a block, `BSIZE / sizeof(struct dinode)`. -/
abbrev ipb : Nat := 8

/-- `BPB`: bits of the free map in a block, `BSIZE*8`. -/
abbrev bpb : Nat := 4096

/-- `DIRSIZ`: bytes of a file name in a directory entry. -/
abbrev dirsiz : Nat := 14

/-- `sizeof(struct dirent)` -/
abbrev direntSize : Nat := 16

/-- `FSSIZE`: blocks of the file system image. -/
abbrev fssize : Nat := 1000

/-- `T_DIR`, the type of directories. -/
abbrev tDir : Nat := 1

/-- `T_FILE`, the type of plain files. -/
abbrev tFile : Nat := 2

/-- `T_DEV`, the type of devices. -/
abbrev tDev : Nat := 3

end Xv6
