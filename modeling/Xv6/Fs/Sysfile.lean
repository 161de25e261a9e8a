import Xv6.Fs.Inode

/-!
# The namespace system calls (`sysfile.c`, `file.c`, the file parts of `fork` and `exit`)

Each call runs atomically inside its transaction (`begin_op` .. `end_op`), so the system is a step
relation whose labels are a process slot and the call it makes. A call whose arguments cannot be
fetched returns -1 before it touches anything, so the arguments are given as fetched. A panic
stops the system.
-/

namespace Xv6

namespace Fs

def O_RDONLY : Nat := 0x000
def O_WRONLY : Nat := 0x001
def O_RDWR : Nat := 0x002
def O_CREATE : Nat := 0x200

namespace FsState

def setFile (s : FsState) (f : Nat) (file : File) : FsState :=
  { s with ftable := s.ftable.set f file }

def file (s : FsState) (f : Nat) : File := s.ftable.getD f ⟨.FD_NONE, 0, false, false, 0, 0, 0⟩

def setProc (s : FsState) (p : Nat) (pf : Option PFiles) : FsState :=
  { s with procs := fun q => if q = p then pf else s.procs q }

def setPipe (s : FsState) (pg : Nat) (pi : Option Pipe) : FsState :=
  { s with pipes := fun q => if q = pg then pi else s.pipes q }

end FsState

open FsState

variable (s : FsState)

/-! ### Open files (`file.c`, `pipe.c`) -/

/-- `pipeclose(p, writable)`: the end closed, and the pipe's page freed once both ends are. -/
def pipeclose (pg : Nat) (writable : Bool) : FsState :=
  match s.pipes pg with
  | some pi =>
    let pi := pi.close writable
    s.setPipe pg (if pi.readopen = false ∧ pi.writeopen = false then none else some pi)
  | none => s

/-- `filealloc()`: the first free entry of the file table, or `none` for 0. -/
def filealloc : Option (Nat × FsState) :=
  match s.ftable.findIdx? fun f => f.ref == 0 with
  | some f => some (f, s.setFile f { s.file f with ref := 1 })
  | none => none

/-- `filedup(f)`. -/
def filedup (f : Nat) : Except String FsState :=
  if (s.file f).ref < 1 then throw "filedup"
  else pure (s.setFile f { s.file f with ref := (s.file f).ref + 1 })

/-- `fileclose(f)`: the last reference closes the file's end of its pipe, or puts its inode. -/
def fileclose (f : Nat) : Except String FsState :=
  let ff := s.file f
  if ff.ref < 1 then throw "fileclose"
  else if ff.ref - 1 > 0 then pure (s.setFile f { ff with ref := ff.ref - 1 })
  else
    let s := s.setFile f { ff with ref := 0, type := .FD_NONE }
    if ff.type = .FD_PIPE then pure (pipeclose s ff.pipe ff.writable)
    else if ff.type = .FD_INODE then pure (iput s ff.ip) else pure s

/-- `pipealloc(&f0, &f1)`, `pg` being the page `kalloc` returns (0 when it fails): the read and the
write end, or `none` for -1. The pipe's buffer plays no part in the file table; the model starts it
with zeros. -/
def pipealloc (pg : Nat) : Except String (Option (Nat × Nat) × FsState) :=
  match filealloc s with
  | none => pure (none, s)
  | some (f0, s) =>
    match filealloc s with
    | none => do pure (none, ← fileclose s f0)
    | some (f1, s) =>
      if pg = 0 then do
        let s ← fileclose s f0
        pure (none, ← fileclose s f1)
      else
        let s := s.setPipe pg (some (Pipe.alloc fun _ => 0))
        let s := s.setFile f0 { s.file f0 with type := .FD_PIPE, readable := true, writable := false, pipe := pg }
        pure (some (f0, f1),
          s.setFile f1 { s.file f1 with type := .FD_PIPE, readable := false, writable := true, pipe := pg })

/-- `fdalloc(f)` for process `p`: the first free descriptor. -/
def fdalloc (p : Nat) (f : Nat) : Option (Nat × FsState) :=
  match s.procs p with
  | some pf =>
    match pf.ofile.findIdx? Option.isNone with
    | some fd => some (fd, s.setProc p (some { pf with ofile := pf.ofile.set fd (some f) }))
    | none => none
  | none => none

/-- The working directory of process `p`. -/
def cwdOf (p : Nat) : Nat := (s.procs p).elim ROOTINO PFiles.cwd

/-! ### The calls -/

/-- `create(path, type, major, minor)`: the inode, locked, or `none` for 0. -/
def create (p : Nat) (path : List UInt8) (type major minor : Nat) :
    Except String (Option Nat × FsState) := do
  let (r, s) ← nameiparent s (cwdOf s p) path
  match r with
  | none => pure (none, s)
  | some (dp, name) =>
    ilock s dp
    let (r, s) ← dirlookup s dp name
    match r with
    | some (ip, _) =>
      let s := iput s dp
      ilock s ip
      if type = T_FILE ∧ (s.dinode ip).type = T_FILE then pure (some ip, s)
      else pure (none, iput s ip)
    | none =>
      let (ip, s) ← ialloc s type
      ilock s ip
      let s := s.setDinode ip { s.dinode ip with major := major, minor := minor, nlink := 1 }
      let s ← if type = T_DIR then do
          -- for `..`; no link for `.`, which would make a cycle of counts
          let s := s.setDinode dp { s.dinode dp with nlink := (s.dinode dp).nlink + 1 }
          let (r, s) ← dirlink s ip [46] ip
          if r < 0 then throw "create dots"
          let (r, s) ← dirlink s ip [46, 46] dp
          if r < 0 then throw "create dots"
          pure s
        else pure s
      let (r, s) ← dirlink s dp name ip
      if r < 0 then throw "create: dirlink"
      pure (some ip, iput s dp)

/-- `sys_open(path, omode)`: a descriptor, or -1. -/
def sys_open (p : Nat) (path : List UInt8) (omode : Nat) : Except String (Int × FsState) := do
  let (r, s) ← if omode &&& O_CREATE ≠ 0 then create s p path T_FILE 0 0
    else do
      let (r, s) ← namei s (cwdOf s p) path
      match r with
      | none => pure (none, s)
      | some ip =>
        ilock s ip
        if (s.dinode ip).type = T_DIR ∧ omode ≠ O_RDONLY then pure (none, iput s ip)
        else pure (some ip, s)
  match r with
  | none => pure (-1, s)
  | some ip =>
    match filealloc s with
    | none => pure (-1, iput s ip)
    | some (f, s) =>
      match fdalloc s p f with
      | none =>
        let s ← fileclose s f
        pure (-1, iput s ip)
      | some (fd, s) =>
        pure (fd, s.setFile f { s.file f with
          type := .FD_INODE
          ip := ip
          off := 0
          readable := omode &&& O_WRONLY == 0
          writable := omode &&& O_WRONLY != 0 || omode &&& O_RDWR != 0 })

/-- `sys_mkdir(path)` and `sys_mknod(path, major, minor)`: `create`, then the inode put. -/
def sysCreate (p : Nat) (path : List UInt8) (type major minor : Nat) : Except String (Int × FsState) := do
  let (r, s) ← create s p path type major minor
  match r with
  | none => pure (-1, s)
  | some ip => pure (0, iput s ip)

def sys_mkdir (p : Nat) (path : List UInt8) : Except String (Int × FsState) := sysCreate s p path T_DIR 0 0

def sys_mknod (p : Nat) (path : List UInt8) (major minor : Nat) : Except String (Int × FsState) :=
  sysCreate s p path T_DEV major minor

/-- `sys_chdir(path)`. -/
def sys_chdir (p : Nat) (path : List UInt8) : Except String (Int × FsState) := do
  let (r, s) ← namei s (cwdOf s p) path
  match r with
  | none => pure (-1, s)
  | some ip =>
    ilock s ip
    if (s.dinode ip).type ≠ T_DIR then pure (-1, iput s ip)
    else
      let s := iput s (cwdOf s p)
      match s.procs p with
      | some pf => pure (0, s.setProc p (some { pf with cwd := ip }))
      | none => pure (0, s)

/-- `sys_link(old, new)`. -/
def sys_link (p : Nat) (old new : List UInt8) : Except String (Int × FsState) := do
  let (r, s) ← namei s (cwdOf s p) old
  match r with
  | none => pure (-1, s)
  | some ip =>
    ilock s ip
    if (s.dinode ip).type = T_DIR then pure (-1, iput s ip)
    else
      let s := s.setDinode ip { s.dinode ip with nlink := (s.dinode ip).nlink + 1 }
      -- `bad:` undoes the link count
      let bad (s : FsState) : Except String (Int × FsState) := do
        ilock s ip
        let s := s.setDinode ip { s.dinode ip with nlink := (s.dinode ip).nlink - 1 }
        pure (-1, iput s ip)
      let (r, s) ← nameiparent s (cwdOf s p) new
      match r with
      | none => bad s
      | some (dp, name) =>
        ilock s dp
        let (r, s) ← dirlink s dp name ip
        if r < 0 then bad (iput s dp)
        else pure (0, iput (iput s dp) ip)

/-- `isdirempty(dp)`'s scan of the entries after `.` and `..`. -/
def isdiremptyLoop (d : Dinode) : Nat → Nat → Except String Bool
  | 0, _ => pure true
  | k + 1, off =>
    if off < d.size then
      match readi d off DIRENT with
      | some de =>
        if de.length ≠ DIRENT then throw "isdirempty: readi"
        else if deInum de ≠ 0 then pure false
        else isdiremptyLoop d k (off + DIRENT)
      | none => throw "isdirempty: readi"
    else pure true

def isdirempty (d : Dinode) : Except String Bool := isdiremptyLoop d (d.size / DIRENT + 1) (2 * DIRENT)

/-- `sys_unlink(path)`. -/
def sys_unlink (p : Nat) (path : List UInt8) : Except String (Int × FsState) := do
  let (r, s) ← nameiparent s (cwdOf s p) path
  match r with
  | none => pure (-1, s)
  | some (dp, name) =>
    ilock s dp
    if namecmp name [46] || namecmp name [46, 46] then pure (-1, iput s dp)
    else
      let (r, s) ← dirlookup s dp name
      match r with
      | none => pure (-1, iput s dp)
      | some (ip, off) =>
        ilock s ip
        if (s.dinode ip).nlink < 1 then throw "unlink: nlink < 1"
        let empty ← if (s.dinode ip).type = T_DIR then isdirempty (s.dinode ip) else pure true
        if ¬empty then pure (-1, iput (iput s ip) dp)
        else
          match writei (s.dinode dp) off (List.replicate DIRENT 0) with
          | none => throw "unlink: writei"
          | some d =>
            let s := s.setDinode dp d
            let s := if (s.dinode ip).type = T_DIR then
                s.setDinode dp { s.dinode dp with nlink := (s.dinode dp).nlink - 1 } else s
            let s := iput s dp
            let s := s.setDinode ip { s.dinode ip with nlink := (s.dinode ip).nlink - 1 }
            pure (0, iput s ip)

/-- `sys_dup(fd)`. -/
def sys_dup (p : Nat) (fd : Nat) : Except String (Int × FsState) :=
  match s.procs p with
  | some pf =>
    match pf.ofile.getD fd none with
    | some f =>
      match fdalloc s p f with
      | some (fd, s) => do pure (fd, ← filedup s f)
      | none => pure (-1, s)
    | none => pure (-1, s)
  | none => pure (-1, s)

/-- `sys_pipe(fd)` with the page `pg` from `kalloc`. -/
def sys_pipe (p pg : Nat) : Except String (Int × FsState) := do
  let (r, s) ← pipealloc s pg
  match r with
  | none => pure (-1, s)
  | some (rf, wf) =>
    match fdalloc s p rf with
    | none => do
      let s ← fileclose s rf
      pure (-1, ← fileclose s wf)
    | some (fd0, s) =>
      match fdalloc s p wf with
      | some (_, s) => pure (0, s)
      | none =>
        -- `myproc()->ofile[fd0] = 0`
        let s := match s.procs p with
          | some pf => s.setProc p (some { pf with ofile := pf.ofile.set fd0 none })
          | none => s
        let s ← fileclose s rf
        pure (-1, ← fileclose s wf)

/-- `sys_close(fd)`. -/
def sys_close (p : Nat) (fd : Nat) : Except String (Int × FsState) :=
  match s.procs p with
  | some pf =>
    match pf.ofile.getD fd none with
    | some f => do
      let s := s.setProc p (some { pf with ofile := pf.ofile.set fd none })
      pure (0, ← fileclose s f)
    | none => pure (-1, s)
  | none => pure (-1, s)

/-- `filedup` of every open file of a process, in descriptor order. -/
def dupAll : List (Option Nat) → FsState → Except String FsState
  | [], s => pure s
  | none :: fs, s => dupAll fs s
  | some f :: fs, s => do dupAll fs (← filedup s f)

/-- The file part of `fork()` by `p` into the free slot `np`: the child shares the open files and
the working directory. -/
def fork (p np : Nat) : Except String FsState :=
  match s.procs p with
  | some pf => do
    let s ← dupAll pf.ofile s
    pure ((idup s pf.cwd).setProc np (some pf))
  | none => pure s

/-- `fileclose` of every open file of a process, in descriptor order. -/
def closeAll : List (Option Nat) → FsState → Except String FsState
  | [], s => pure s
  | none :: fs, s => closeAll fs s
  | some f :: fs, s => do closeAll fs (← fileclose s f)

/-- The file part of `exit()` by `p`: every open file closed, then the working directory put. -/
def exit (p : Nat) : Except String FsState :=
  if p = 0 then throw "init exiting"
  else
    match s.procs p with
    | some pf => do
      let s ← closeAll pf.ofile s
      pure ((iput s pf.cwd).setProc p none)
    | none => pure s

/-- The file part of `exec(path, argv)`: the program's inode is looked up, locked and put again,
when the new image is in place as on every failure path after `namei`. -/
def exec (p : Nat) (path : List UInt8) : Except String FsState := do
  let (r, s) ← namei s (cwdOf s p) path
  match r with
  | none => pure s
  | some ip =>
    ilock s ip
    pure (iput s ip)

/-! ### The system -/

/-- A namespace system call with its fetched arguments; paths are C strings without their NUL. -/
inductive Call
  | open (path : List UInt8) (omode : Nat)
  | mkdir (path : List UInt8)
  | mknod (path : List UInt8) (major minor : Nat)
  | link (old new : List UInt8)
  | unlink (path : List UInt8)
  | chdir (path : List UInt8)
  | close (fd : Nat)
  | fork (np : Nat)
  | exit
  | dup (fd : Nat)
  /-- `pipe()`, `kalloc` returning the page `pg` (0 when it fails). -/
  | pipe (pg : Nat)
  | exec (path : List UInt8)
  /-- `wait()`: the child's files were closed and its working directory put by its `exit`. -/
  | wait

/-- Process `p` makes call `c`: the state after it, `none` if it panics or `p` has no process (or
`fork`'s slot is taken, or `kalloc` would return a page that holds a pipe). -/
def next (p : Nat) (c : Call) : Option FsState :=
  if (s.procs p).isNone then none
  else match c with
  | .open path omode => (sys_open s p path omode).toOption.map Prod.snd
  | .mkdir path => (sys_mkdir s p path).toOption.map Prod.snd
  | .mknod path major minor => (sys_mknod s p path major minor).toOption.map Prod.snd
  | .link old new => (sys_link s p old new).toOption.map Prod.snd
  | .unlink path => (sys_unlink s p path).toOption.map Prod.snd
  | .chdir path => (sys_chdir s p path).toOption.map Prod.snd
  | .close fd => (sys_close s p fd).toOption.map Prod.snd
  | .fork np => if (s.procs np).isNone ∧ np < NPROC then (fork s p np).toOption else none
  | .exit => (exit s p).toOption
  | .dup fd => (sys_dup s p fd).toOption.map Prod.snd
  | .pipe pg => if pg = 0 ∨ s.pipes pg = none then (sys_pipe s p pg).toOption.map Prod.snd else none
  | .exec path => (exec s p path).toOption
  | .wait => some s

/-- `p` makes the calls of the list in turn. -/
def run (p : Nat) : List Call → FsState → Option FsState
  | [], s => some s
  | c :: cs, s => (next s p c).bind (run p cs)

/-- The root directory `mkfs` writes: `.` and `..`, both the root, and the rest of its first
block zero, since `mkfs` rounds the root's size up to a whole block. -/
def rootDinode : Dinode :=
  ⟨T_DIR, 0, 0, 1, encodeDirent ROOTINO [46] ++ encodeDirent ROOTINO [46, 46] ++ List.replicate 480 0⟩

/-- The system after boot on the image `mkfs` builds with no files: `init` (slot 0) has no open file
and the root as its working directory. -/
def boot : FsState where
  dinode i := if i = ROOTINO then rootDinode else ⟨0, 0, 0, 0, []⟩
  icache := ⟨ROOTINO, 1⟩ :: List.replicate (NINODE - 1) ⟨0, 0⟩
  ftable := List.replicate NFILE ⟨.FD_NONE, 0, false, false, 0, 0, 0⟩
  procs p := if p = 0 then some ⟨List.replicate NOFILE none, ROOTINO⟩ else none
  pipes _ := none

end Fs

end Xv6
