/-
  System calls (kernel/syscall.c; kernel/handlers.asm: syscall_handle; kernel/syscall_gate.c).

  A program loads its registers and traps.  The handler checks the number, saves the registers, calls the
  function of the table, and goes back with the result in `eax`.  It calls the check before it has saved
  anything, and a C function need not keep `eax`, `ecx` and `edx`.

  * `Instr.exec`, `syscallHandle`: the instructions of the handler;
  * `intSyscall`: a system call from the trap to the return;
  * `served`: what a program asks for;
  * `calls_served_iff`: every program gets it exactly if the check leaves the three registers as they are.
-/
import Rdix.Kernel.Halt

namespace Rdix.Syscall

open Function

abbrev Word := BitVec 32

/-! ## The table -/

/-- The functions of `syscall_table`. -/
inductive Service where
  | sysTest
  | taskSleep
  | sysBrk
  | sysFork
  | sysGetpid
  | sysGetppid
  | sysExit
  | sysWaitpid
  | sysYield
  | sysOpen
  | sysCreate
  | sysClose
  | sysRead
  | sysWrite
  | sysLseek
  | sysReaddir
  | sysMkdir
  | sysRmdir
  | sysChdir
  | sysGetpwd
  | sysLink
  | sysUnlink
  | syscallDefaultHandle
deriving DecidableEq

/-- `SYSCALL_NUM`. -/
abbrev syscallNum : ℕ := 64

/-- `syscall_init`: the numbers `SYS_NR_…`, in the order of the assignments. -/
def syscallInit : ℕ → Service :=
  [(0, Service.sysTest), (1, .taskSleep), (2, .sysBrk), (3, .sysFork), (4, .sysGetpid), (5, .sysGetppid),
    (6, .sysExit), (7, .sysWaitpid), (8, .sysYield), (9, .sysOpen), (10, .sysCreate), (11, .sysClose),
    (12, .sysRead), (13, .sysWrite), (14, .sysLseek), (15, .sysReaddir), (16, .sysMkdir), (17, .sysRmdir),
    (18, .sysChdir), (19, .sysGetpwd), (20, .sysLink), (21, .sysUnlink)].foldl
    (fun table e => update table e.1 e.2) fun _ => .syscallDefaultHandle

/-! ## The processor -/

/-- The registers of a program, but for those that the processor saves. -/
structure Regs where
  eax : Word
  ecx : Word
  edx : Word
  ebx : Word
  ebp : Word
  esi : Word
  edi : Word
  ds : BitVec 16
  es : BitVec 16
  fs : BitVec 16
  gs : BitVec 16

/-- A program where it traps. -/
structure User where
  regs : Regs
  eip : Word
  cs : Word
  eflags : Word
  esp : Word
  ss : Word

/-- The processor in the kernel: the registers, and the stack, whose top comes first. -/
structure Machine (σ : Type) where
  regs : Regs
  stack : List Word
  kernel : σ

/-- What a C function leaves behind: its result, `ecx` and `edx`, and the arguments, which are its own. -/
structure Ret (σ : Type) where
  kernel : σ
  eax : Word
  ecx : Word
  edx : Word
  args : Word × Word × Word × Word

/-- The functions, with their four arguments. -/
abbrev Code (σ : Type) := Service → σ → Word → Word → Word → Word → C (Ret σ)

/-- What the compiled `syscall_check` leaves in the registers that it need not keep. -/
structure Left where
  eax : Regs → Word
  ecx : Regs → Word
  edx : Regs → Word

/-- The operands of `push`. -/
inductive Reg where
  | eax
  | ecx
  | edx
  | ebx

inductive Seg where
  | ds
  | es
  | fs
  | gs

/-- The instructions of the handler; the offsets are numbers of words. -/
inductive Instr where
  | push (r : Reg)
  | pushSeg (s : Seg)
  | pushImm (v : Word)
  | popSeg (s : Seg)
  | pusha
  | popa
  | addEsp (n : ℕ)
  /-- `mov [esp + n * 4], eax` -/
  | storeEax (n : ℕ)
  /-- `call syscall_check` -/
  | callCheck
  /-- `call [syscall_table + eax * 4]` -/
  | callTable

def Regs.get (r : Regs) : Reg → Word
  | .eax => r.eax
  | .ecx => r.ecx
  | .edx => r.edx
  | .ebx => r.ebx

def Regs.seg (r : Regs) : Seg → BitVec 16
  | .ds => r.ds
  | .es => r.es
  | .fs => r.fs
  | .gs => r.gs

def Regs.setSeg (r : Regs) (v : BitVec 16) : Seg → Regs
  | .ds => { r with ds := v }
  | .es => { r with es := v }
  | .fs => { r with fs := v }
  | .gs => { r with gs := v }

section Exec
variable {σ : Type}

def Instr.exec (code : Code σ) (left : Left) : Instr → Machine σ → C (Machine σ)
  | .push r, m => return { m with stack := m.regs.get r :: m.stack }
  | .pushSeg s, m => return { m with stack := (m.regs.seg s).setWidth 32 :: m.stack }
  | .pushImm v, m => return { m with stack := v :: m.stack }
  | .popSeg s, m =>
    match m.stack with
    | v :: stack => return { m with regs := m.regs.setSeg (v.setWidth 16) s, stack := stack }
    | [] => throw (.wild "stack")
  | .pusha, m =>
    let r := m.regs
    -- the word for `esp` is skipped by `popa`
    return { m with stack := r.edi :: r.esi :: r.ebp :: 0 :: r.ebx :: r.edx :: r.ecx :: r.eax :: m.stack }
  | .popa, m =>
    match m.stack with
    | edi :: esi :: ebp :: _ :: ebx :: edx :: ecx :: eax :: stack =>
      return { m with
        regs := { m.regs with eax := eax, ecx := ecx, edx := edx, ebx := ebx, ebp := ebp, esi := esi, edi := edi }
        stack := stack }
    | _ => throw (.wild "stack")
  | .addEsp n, m => return { m with stack := m.stack.drop n }
  | .storeEax n, m => return { m with stack := m.stack.set n m.regs.eax }
  | .callCheck, m =>
    match m.stack with
    | sys_vector :: _ =>
      if syscallNum ≤ sys_vector.toNat then throw (.panic "syscall error: no such func\n")
      else return { m with
        regs := { m.regs with eax := left.eax m.regs, ecx := left.ecx m.regs, edx := left.edx m.regs } }
    | [] => throw (.wild "stack")
  | .callTable, m =>
    match m.stack with
    | a :: b :: c :: d :: stack =>
      if m.regs.eax.toNat < syscallNum then do
        let r ← code (syscallInit m.regs.eax.toNat) m.kernel a b c d
        return ⟨{ m.regs with eax := r.eax, ecx := r.ecx, edx := r.edx },
          r.args.1 :: r.args.2.1 :: r.args.2.2.1 :: r.args.2.2.2 :: stack, r.kernel⟩
      else throw (.wild "syscall_table")
    | _ => throw (.wild "stack")

/-- `syscall_handle` up to `iret`. -/
def syscallHandle : List Instr :=
  [.push .eax, .callCheck, .addEsp 1,
    .pushImm 0x01011017, .pushImm 0x80,
    .pushSeg .ds, .pushSeg .es, .pushSeg .fs, .pushSeg .gs, .pusha,
    .pushImm 0x80, .push .edx, .push .ecx, .push .ebx,
    .callTable, .addEsp 4,
    .storeEax 7,
    .popa, .popSeg .gs, .popSeg .fs, .popSeg .es, .popSeg .ds,
    .addEsp 2]

/-- `int $0x80` with the handler and `iret`. -/
def intSyscall (code : Code σ) (left : Left) (u : User) (k : σ) : C (User × σ) := do
  let m ← syscallHandle.foldlM (fun m i => i.exec code left m)
    ⟨u.regs, [u.eip, u.cs, u.eflags, u.esp, u.ss], k⟩
  match m.stack with
  | eip :: cs :: eflags :: esp :: ss :: _ => return (⟨m.regs, eip, cs, eflags, esp, ss⟩, m.kernel)
  | _ => throw (.wild "stack")

/-- A program that makes system calls: what it does before each of them, with all it has. -/
def runCalls (call : User → σ → C (User × σ)) : List (User → User) → User → σ → C (User × σ)
  | [], u, k => return (u, k)
  | f :: fs, u, k => do
    let (u, k) ← call (f u) k
    runCalls call fs u k

/-! ## What is asked for -/

/-- The function with a number in `syscall_t`. -/
def service (nr : ℕ) : Service :=
  [Service.sysTest, .taskSleep, .sysBrk, .sysFork, .sysGetpid, .sysGetppid, .sysExit, .sysWaitpid, .sysYield,
    .sysOpen, .sysCreate, .sysClose, .sysRead, .sysWrite, .sysLseek, .sysReaddir, .sysMkdir, .sysRmdir,
    .sysChdir, .sysGetpwd, .sysLink, .sysUnlink].getD nr .syscallDefaultHandle

/-- The function with the number in `eax` is called, and the program has its result there. -/
def served (code : Code σ) (u : User) (k : σ) : C (User × σ) :=
  if u.regs.eax.toNat < syscallNum then do
    let r ← code (service u.regs.eax.toNat) k u.regs.ebx u.regs.ecx u.regs.edx 0x80
    return ({ u with regs := { u.regs with eax := r.eax } }, r.kernel)
  else throw (.panic "syscall error: no such func\n")

/-- `syscall_check` leaves alone what the handler still needs: the arguments, and the function of the number. -/
def Spares (left : Left) : Prop :=
  ∀ r : Regs, r.eax.toNat < syscallNum → left.ecx r = r.ecx ∧ left.edx r = r.edx ∧
    (left.eax r).toNat < syscallNum ∧ service (left.eax r).toNat = service r.eax.toNat

/-- `_syscall0` .. `_syscall3`: a register without an argument is not loaded. -/
def loadArgs (nr : ℕ) (args : List Word) (u : User) : User :=
  { u with regs := { u.regs with
      eax := .ofNat 32 nr
      ebx := args.getD 0 u.regs.ebx
      ecx := args.getD 1 u.regs.ecx
      edx := args.getD 2 u.regs.edx } }

/-- The number that a wrapper of syscall.c uses. -/
def sysNr : Service → ℕ
  | .sysTest => 0
  | .taskSleep => 1
  | .sysBrk => 2
  | .sysFork => 3
  | .sysGetpid => 4
  | .sysGetppid => 5
  | .sysExit => 6
  | .sysWaitpid => 7
  | .sysYield => 8
  | .sysOpen => 9
  | .sysCreate => 10
  | .sysClose => 11
  | .sysRead => 12
  | .sysWrite => 13
  | .sysLseek => 14
  | .sysReaddir => 15
  | .sysMkdir => 16
  | .sysRmdir => 17
  | .sysChdir => 18
  | .sysGetpwd => 19
  | .sysLink => 20
  | .sysUnlink => 21
  | .syscallDefaultHandle => 22

/-! ## The path -/

variable {code : Code σ} {left : Left} {u : User} {k : σ} {nr : ℕ}

theorem syscallInit_eq (h : nr < syscallNum) : syscallInit nr = service nr := by
  have hall : ∀ n < 64, syscallInit n = service n := by decide
  exact hall nr h

theorem service_sysNr (s : Service) : service (sysNr s) = s := by cases s <;> rfl

/-- What the handler saves. -/
def frame (r : Regs) : List Word :=
  [r.edi, r.esi, r.ebp, 0, r.ebx, r.edx, r.ecx, r.eax, r.gs.setWidth 32, r.fs.setWidth 32, r.es.setWidth 32,
    r.ds.setWidth 32, 0x80, 0x01011017]

/-- The handler up to the check. -/
abbrev checkPart : List Instr := [.push .eax, .callCheck, .addEsp 1]

/-- Up to the call. -/
abbrev savePart : List Instr :=
  [.pushImm 0x01011017, .pushImm 0x80, .pushSeg .ds, .pushSeg .es, .pushSeg .fs, .pushSeg .gs, .pusha,
    .pushImm 0x80, .push .edx, .push .ecx, .push .ebx]

/-- Behind the call. -/
abbrev restorePart : List Instr :=
  [.addEsp 4, .storeEax 7, .popa, .popSeg .gs, .popSeg .fs, .popSeg .es, .popSeg .ds, .addEsp 2]

theorem syscallHandle_eq : syscallHandle = checkPart ++ (savePart ++ ([.callTable] ++ restorePart)) := rfl

theorem foldlM_singleton {α β : Type} (f : β → α → C β) (b : β) (a : α) : [a].foldlM f b = f b a := by
  rw [List.foldlM_cons]
  cases f b a <;> rfl

theorem check_exec (code : Code σ) (left : Left) (r : Regs) (stack : List Word) (k : σ) :
    checkPart.foldlM (fun m i => i.exec code left m) ⟨r, stack, k⟩ =
      if r.eax.toNat < syscallNum then
        .ok ⟨{ r with eax := left.eax r, ecx := left.ecx r, edx := left.edx r }, stack, k⟩
      else .error (.panic "syscall error: no such func\n") := by
  have hexec : (Instr.callCheck).exec code left ⟨r, r.eax :: stack, k⟩ =
      if syscallNum ≤ r.eax.toNat then .error (.panic "syscall error: no such func\n")
      else .ok ⟨{ r with eax := left.eax r, ecx := left.ecx r, edx := left.edx r }, r.eax :: stack, k⟩ := rfl
  show (Instr.callCheck).exec code left ⟨r, r.eax :: stack, k⟩ >>= _ = _
  rw [hexec]
  by_cases hnr : r.eax.toNat < syscallNum
  · rw [if_pos hnr, if_neg (Nat.not_le.2 hnr)]
    rfl
  · rw [if_neg hnr, if_pos (Nat.not_lt.1 hnr)]
    rfl

theorem save_exec (code : Code σ) (left : Left) (r : Regs) (stack : List Word) (k : σ) :
    savePart.foldlM (fun m i => i.exec code left m) ⟨r, stack, k⟩ =
      .ok ⟨r, r.ebx :: r.ecx :: r.edx :: 0x80 :: (frame r ++ stack), k⟩ := by
  simp only [List.foldlM_cons, List.foldlM_nil, Instr.exec, pure_eq_ok, ok_bind]
  rfl

/-- A segment register is pushed as a word, and popped again. -/
theorem setWidth_seg (v : BitVec 16) : (v.setWidth 32).setWidth 16 = v := by
  rw [BitVec.setWidth_setWidth_of_le _ (by decide), BitVec.setWidth_eq]

/-- **What has been saved is loaded again**, with the result in the place of `eax`. -/
theorem restore_exec (code : Code σ) (left : Left) (r r' : Regs) (a b c d : Word) (stack : List Word) (k : σ) :
    restorePart.foldlM (fun m i => i.exec code left m) ⟨r', a :: b :: c :: d :: (frame r ++ stack), k⟩ =
      .ok ⟨{ r with eax := r'.eax }, stack, k⟩ := by
  show Except.ok (Machine.mk { r with
    eax := r'.eax
    ds := (r.ds.setWidth 32).setWidth 16
    es := (r.es.setWidth 32).setWidth 16
    fs := (r.fs.setWidth 32).setWidth 16
    gs := (r.gs.setWidth 32).setWidth 16 } stack k) = _
  simp only [setWidth_seg]

/-- **The handler**: it calls the function of the number that the check has left, with the arguments that it
    has left, and the program has both of these back. -/
theorem intSyscall_eq (code : Code σ) (left : Left) (u : User) (k : σ) : intSyscall code left u k =
    if u.regs.eax.toNat < syscallNum then
      if (left.eax u.regs).toNat < syscallNum then do
        let r ← code (syscallInit (left.eax u.regs).toNat) k u.regs.ebx (left.ecx u.regs) (left.edx u.regs) 0x80
        return ({ u with regs := { u.regs with
          eax := r.eax, ecx := left.ecx u.regs, edx := left.edx u.regs } }, r.kernel)
      else throw (.wild "syscall_table")
    else throw (.panic "syscall error: no such func\n") := by
  rw [intSyscall, syscallHandle_eq, List.foldlM_append, check_exec]
  by_cases hnr : u.regs.eax.toNat < syscallNum
  · rw [if_pos hnr, if_pos hnr, ok_bind, List.foldlM_append, save_exec, ok_bind, List.foldlM_append,
      foldlM_singleton, Instr.exec]
    dsimp only
    by_cases hleft : (left.eax u.regs).toNat < syscallNum
    · rw [if_pos hleft, if_pos hleft]
      cases code (syscallInit (left.eax u.regs).toNat) k u.regs.ebx (left.ecx u.regs) (left.edx u.regs) 0x80 with
      | error e => rfl
      | ok r =>
        rw [ok_bind, ok_bind, pure_eq_ok, ok_bind, restore_exec]
        rfl
    · rw [if_neg hleft, if_neg hleft]
      rfl
  · rw [if_neg hnr, if_neg hnr]
    rfl

/-! ## Programs -/

/-- A call of a program that is served. -/
theorem intSyscall_served (h : Spares left) (code : Code σ) (u : User) (k : σ) :
    intSyscall code left u k = served code u k := by
  rw [intSyscall_eq, served]
  by_cases hnr : u.regs.eax.toNat < syscallNum
  · obtain ⟨hecx, hedx, hleft, hservice⟩ := h u.regs hnr
    rw [if_pos hnr, if_pos hnr, if_pos hleft, syscallInit_eq hleft, hservice, hecx, hedx]
  · rw [if_neg hnr, if_neg hnr]

/-- A wrapper of syscall.c calls its own function. -/
theorem intSyscall_wrapper (h : Spares left) (s : Service) (args : List Word) (u : User) (k : σ) :
    intSyscall code left (loadArgs (sysNr s) args u) k = do
      let r ← code s k (args.getD 0 u.regs.ebx) (args.getD 1 u.regs.ecx) (args.getD 2 u.regs.edx) 0x80
      let u := loadArgs (sysNr s) args u
      return ({ u with regs := { u.regs with eax := r.eax } }, r.kernel) := by
  have hnr : (loadArgs (sysNr s) args u).regs.eax.toNat = sysNr s := by cases s <;> rfl
  have hlt : sysNr s < syscallNum := by cases s <;> decide
  rw [intSyscall_served h, served, hnr, if_pos hlt, service_sysNr]
  rfl

theorem runCalls_congr {call call' : User → σ → C (User × σ)} (h : ∀ u k, call u k = call' u k)
    (fs : List (User → User)) (u : User) (k : σ) : runCalls call fs u k = runCalls call' fs u k := by
  have hcall : call = call' := funext fun u => funext (h u)
  rw [hcall]

/-- A function that returns, and does nothing else. -/
def returns (k : σ) (f : Service → Word) : Code σ := fun s _ a b c d => .ok ⟨k, f s, 0, 0, a, b, c, d⟩

/-- A number that is not served shows in the result, or in the registers. -/
theorem spares_of_served [Inhabited σ]
    (h : ∀ (code : Code σ) u k, intSyscall code left u k = served code u k) : Spares left := by
  intro r hr
  let u : User := ⟨r, 0, 0, 0, 0, 0⟩
  let f (s : Service) : Word := if s = service r.eax.toNat then 1 else 0
  have hcall := h (returns default f) u default
  rw [intSyscall_eq, served, if_pos hr, if_pos hr] at hcall
  by_cases hleft : (left.eax r).toNat < syscallNum
  · rw [if_pos hleft] at hcall
    have hregs := congrArg (fun p : User × σ => p.1.regs) (Except.ok.inj hcall)
    have hecx : left.ecx r = r.ecx := congrArg Regs.ecx hregs
    have hedx : left.edx r = r.edx := congrArg Regs.edx hregs
    have heax : f (syscallInit (left.eax r).toNat) = f (service r.eax.toNat) := congrArg Regs.eax hregs
    refine ⟨hecx, hedx, hleft, ?_⟩
    rw [← syscallInit_eq hleft]
    by_contra hne
    have h01 : (0 : Word) = 1 := by
      simpa only [f, if_neg hne, if_true] using heax
    exact absurd h01 (by decide)
  · rw [if_neg hleft] at hcall
    cases hcall

/-- **Every program is served**: whatever it calls, in any order and with anything in its registers, the
    function of each number runs with its arguments, and the program goes on where it was, with the result and
    all its other registers, exactly if the compiled check spares what the handler has not saved. -/
theorem calls_served_iff [Inhabited σ] (left : Left) :
    (∀ (code : Code σ) (fs : List (User → User)) (u : User) (k : σ),
      runCalls (intSyscall code left) fs u k = runCalls (served code) fs u k) ↔ Spares left := by
  constructor
  · refine fun h => spares_of_served (σ := σ) fun code u k => ?_
    have hone := h code [fun _ => u] u k
    have hrun (call : User → σ → C (User × σ)) : runCalls call [fun _ => u] u k = call u k := by
      unfold runCalls runCalls
      cases call u k <;> rfl
    rwa [hrun, hrun] at hone
  · exact fun h code fs u k => runCalls_congr (intSyscall_served h code) fs u k

end Exec

end Rdix.Syscall
