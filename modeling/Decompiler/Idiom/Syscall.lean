import Decompiler.OrdMap
import Decompiler.Text.Hex
import Decompiler.Tree.Edit
/-!
# System calls

On 32-bit x86 a system call is made by a software interrupt; the number is in `eax` and the
arguments are in fixed registers. Where the registers are loaded with constants in the same block,
the call is described in a comment.
-/

namespace Decompiler.Syscall

/-- Names of the system calls and how many arguments each takes, by number. -/
def table : List (Nat × String × Nat) :=
  [(1, "exit", 1), (2, "fork", 0), (3, "read", 3), (4, "write", 3), (5, "open", 3), (6, "close", 1),
   (7, "waitpid", 3), (8, "creat", 2), (9, "link", 2), (10, "unlink", 1), (11, "execve", 3),
   (12, "chdir", 1), (13, "time", 1), (14, "mknod", 3), (15, "chmod", 2), (16, "lchown", 3),
   (18, "stat", 2), (19, "lseek", 3), (20, "getpid", 0), (21, "mount", 3), (22, "oldumount", 1),
   (23, "setuid", 1), (24, "getuid", 0), (25, "stime", 1), (26, "ptrace", 4), (27, "alarm", 1),
   (28, "fstat", 2), (29, "pause", 0), (30, "utime", 2), (33, "access", 2), (34, "nice", 1),
   (36, "sync", 0), (37, "kill", 2), (38, "rename", 2), (39, "mkdir", 2), (40, "rmdir", 1),
   (41, "dup", 1), (42, "pipe", 1), (43, "times", 1), (45, "brk", 1), (46, "setgid", 1),
   (47, "getgid", 0), (48, "signal", 2), (49, "geteuid", 0), (50, "getegid", 0), (51, "acct", 1),
   (52, "umount", 2), (54, "ioctl", 3), (55, "fcntl", 3), (57, "setpgid", 2), (59, "olduname", 1),
   (60, "umask", 1), (61, "chroot", 1), (62, "ustat", 2), (63, "dup2", 2), (64, "getppid", 0),
   (65, "getpgrp", 0), (66, "setsid", 0), (67, "sigaction", 3), (68, "sgetmask", 0),
     (69, "ssetmask", 1),
   (70, "setreuid", 2), (71, "setregid", 2), (72, "sigsuspend", 3), (73, "sigpending", 1),
   (74, "sethostname", 2), (75, "setrlimit", 2), (76, "getrlimit", 2), (77, "getrusage", 2),
   (78, "gettimeofday", 2), (79, "settimeofday", 2), (80, "getgroups", 2), (81, "setgroups", 2),
   (82, "old_select", 1), (83, "symlink", 2), (84, "lstat", 2), (85, "readlink", 3),
     (86, "uselib", 1),
   (87, "swapon", 2), (88, "reboot", 4), (89, "old_readdir", 3), (90, "old_mmap", 1),
     (91, "munmap", 2),
   (92, "truncate", 2), (93, "ftruncate", 2), (94, "fchmod", 2), (95, "fchown", 3),
   (96, "getpriority", 2), (97, "setpriority", 3), (99, "statfs", 2), (100, "fstatfs", 2),
   (101, "ioperm", 3), (102, "socketcall", 2), (103, "syslog", 3), (104, "setitimer", 3),
   (105, "getitimer", 2), (106, "newstat", 2), (107, "newlstat", 2), (108, "newfstat", 2),
   (109, "uname", 1), (110, "iopl", 1), (111, "vhangup", 0), (112, "idle", 0), (113, "vm86old", 2),
   (114, "wait4", 4), (115, "swapoff", 1), (116, "sysinfo", 1), (117, "ipc (*Note)", 5),
   (118, "fsync", 1), (119, "sigreturn", 1), (120, "clone", 1), (121, "setdomainname", 2),
   (122, "newuname", 1), (123, "modify_ldt", 3), (124, "adjtimex", 1), (125, "mprotect", 3),
   (126, "sigprocmask", 3), (127, "create_module", 2), (128, "init_module", 2),
     (129, "delete_module", 1),
   (130, "get_kernel_syms", 1), (131, "quotactl", 4), (132, "getpgid", 1), (133, "fchdir", 1),
   (134, "bdflush", 2), (135, "sysfs", 3), (136, "personality", 1), (138, "setfsuid", 1),
   (139, "setfsgid", 1), (140, "llseek", 5), (141, "getdents", 3), (142, "select", 5),
     (143, "flock", 2),
   (144, "msync", 3), (145, "readv", 3), (146, "writev", 3), (147, "getsid", 1),
     (148, "fdatasync", 1),
   (149, "sysctl", 1), (150, "mlock", 2), (151, "munlock", 2), (152, "mlockall", 1),
   (153, "munlockall", 0), (154, "sched_setparam", 2), (155, "sched_getparam", 2),
   (156, "sched_setscheduler", 3), (157, "sched_getscheduler", 1), (158, "sched_yield", 0),
   (159, "sched_get_priority_max", 1), (160, "sched_get_priority_min", 1),
   (161, "sched_rr_get_interval", 2), (162, "nanosleep", 2), (163, "mremap", 4),
     (164, "setresuid", 3),
   (165, "getresuid", 3), (166, "vm86", 1), (167, "query_module", 5), (168, "poll", 3),
   (169, "nfsservctl", 3), (170, "setresgid", 3), (171, "getresgid", 3), (172, "prctl", 5),
   (173, "rt_sigreturn", 1), (174, "rt_sigaction", 4), (175, "rt_sigprocmask", 4),
   (176, "rt_sigpending", 2), (177, "rt_sigtimedwait", 4), (178, "rt_sigqueueinfo", 3),
   (179, "rt_sigsuspend", 2), (180, "pread", 4), (181, "pwrite", 4), (182, "chown", 3),
   (183, "getcwd", 2), (186, "sigaltstack", 2), (187, "sendfile", 4), (190, "vfork", 1)]

/-- The registers that hold the arguments, each with the names of its parts; the first name is
shown. -/
def argumentRegisters : List (String × List String) :=
  [("ebx", ["ebx", "rbx", "bl", "bx"]), ("ecx", ["ecx", "cl", "cx"]), ("edx", ["edx", "dl", "dx"]),
   ("esi", ["esi", "rsi"]), ("edi", ["edi", "rdi"])]

/-- The names of the register that holds the number of the call. -/
def numberRegister : List String := ["al", "ax", "eax", "rax"]

/-- Whether an instruction writes one of some registers. -/
def writes (registers : List String) (i : Insn) : Bool :=
  match i.operands.head? with
  | some op => op.register?.any (registers.contains ·)
  | none => false

/-- The constant that an instruction loads into its first operand, for the few forms that are
understood. -/
def constant (i : Insn) : Except Fault (Option Int) :=
  if i.opcode = "MOV" then do
    let op ← i.operand 1
    return if op.isImmediate then some op.number else none
  else if i.opcode = "XOR" then .ok (some 0)
  else .ok none

/-- What the last instruction that writes one of some registers puts there: nothing if no
instruction writes them. `before` are the instructions up to the call, the last one first. -/
def lastWritten (registers : List String) (before : List Insn) :
    Except Fault (Option (Option Int)) :=
  match before.find? (writes registers) with
  | none => .ok none
  | some i => (constant i).map some

/-- The text of an argument: its value if that is known, else its register. -/
def argumentText (before : List Insn) (register : String × List String) : Except Fault String := do
  match ← lastWritten register.2 before with
  | some (some value) => return Text.hex value
  | _ => return register.1

/-- Comments on addresses. -/
abbrev Notes := OrdMap Int String

/-- Writes the arguments of a call after the text so far, which is what stays if one cannot be
told. -/
def writeArguments (before : List Insn) (text : String) :
    List (String × List String) → Edited String
  | [] => .done (text ++ ")")
  | [register] =>
    (Edited.attempt text ((argumentText before register).map (text ++ ·))).next (.done <| · ++ ")")
  | register :: rest =>
    (Edited.attempt text ((argumentText before register).map (text ++ · ++ ", "))).next
      (writeArguments before · rest)

/-- Describes the call at an address, given the instructions up to it, the last one first. Nothing
is said if no instruction sets the number of the call. -/
def noteCall (notes : Notes) (addr : Int) (before : List Insn) : Edited Notes :=
  match lastWritten numberRegister before with
  | .error e => .stopped notes e
  | .ok none => .done notes
  | .ok (some none) => .done (notes.insert addr "?")
  | .ok (some (some number)) =>
    match table.find? (fun e => (e.1 : Int) = number) with
    | none => .stopped notes (.unknownSyscall number)
    | some (_, name, arity) =>
      (writeArguments before (name ++ "(") (argumentRegisters.take arity)).map (notes.insert addr)

/-- Describes the calls of a block. `before` are the instructions in front of the remaining ones,
the last one first. -/
def noteBlock (before : List Insn) (notes : Notes) : List Insn → Edited Notes
  | [] => .done notes
  | i :: rest =>
    let before := i :: before
    if i.opcode = "INT" then (noteCall notes i.addr before).next (noteBlock before · rest)
    else noteBlock before notes rest

mutual

/-- Describes the calls in a node. -/
def noteNode (notes : Notes) : Node → Edited Notes
  | .block items => noteBlock [] notes (items.filterMap Item.insn?)
  | .ifElse _ _ _ next other _ _ => (noteBranch notes other).next (noteBranch · next)
  | .loop _ _ body => noteBranch notes body
  | _ => .done notes

/-- Describes the calls in a branch. -/
def noteBranch (notes : Notes) : List Node → Edited Notes
  | [] => .done notes
  | n :: rest => (noteNode notes n).next (noteBranch · rest)

end

end Decompiler.Syscall
