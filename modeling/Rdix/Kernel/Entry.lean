/-
  Interrupts and what they interrupt (kernel/handlers.asm: SYS_EXCEPTION, interrupt_handler, interrupt_exit).

  For some vectors the processor pushes an error code.  For the others the entry pushes a word in its place,
  so that the handler and the way back find the same stack; the macro has a flag for each vector.

  * `takeInterrupt`: from the processor's pushes to `iret`;
  * `handled`: a program that is interrupted, and goes on as it was;
  * `transparent_iff`: this is so for all vectors but 8, the double fault, whose error code is pushed but not
    expected.
-/
import Rdix.Kernel.Syscall

namespace Rdix.Syscall

/-! ## The code -/

/-- The numbers of entries, `INT_SIZE`. -/
abbrev entryNum : ℕ := 0x40

/-- `RDIX_MAGIC`. -/
abbrev rdixMagic : Word := 0x01011017

/-- The second argument of `SYS_EXCEPTION`, for each vector. -/
def expectsError (v : ℕ) : Bool := v ∈ [0xa, 0xb, 0xc, 0xd, 0xe, 0x11, 0x15]

/-- The vectors for which the processor pushes an error code. -/
def pushesError (v : ℕ) : Bool := v ∈ [8, 10, 11, 12, 13, 14, 17, 21]

/-- What is interrupted: `user` are `esp` and `ss`, which are saved for a program of another privilege. -/
structure Program where
  regs : Regs
  eip : Word
  cs : Word
  eflags : Word
  user : Option (Word × Word)
  privilege : user.isSome ↔ cs &&& 3 = 3

/-- What a handler leaves behind: the kernel, the registers that it need not keep, and its arguments. -/
structure Done (σ : Type) where
  kernel : σ
  eax : Word
  ecx : Word
  edx : Word
  vector : Word
  error : Word

/-- The functions of `interrupt_func_table`, with their two arguments. -/
abbrev Handlers (σ : Type) := ℕ → σ → Word → Word → C (Done σ)

section Exec
variable {σ : Type}

/-- An instruction that calls nothing. -/
def plain (i : Instr) (m : Machine σ) : C (Machine σ) :=
  i.exec (fun _ _ _ _ _ _ => throw (.wild "syscall_table")) ⟨Regs.eax, Regs.ecx, Regs.edx⟩ m

/-- `interrupt_handler` up to the call. -/
def enterPart : List Instr := [.pushSeg .ds, .pushSeg .es, .pushSeg .fs, .pushSeg .gs, .pusha]

/-- `interrupt_exit` up to `iret`. -/
def exitPart : List Instr := [.popa, .popSeg .gs, .popSeg .fs, .popSeg .es, .popSeg .ds, .addEsp 2]

/-- `mov eax, [esp + 12 * 4]`, `mov ebx, [esp + 13 * 4]`, and the call. -/
def callHandler (code : Handlers σ) (m : Machine σ) : C (Machine σ) := do
  let eax ← deref "esp" m.stack[12]?
  let ebx ← deref "esp" m.stack[13]?
  if eax.toNat < entryNum then do
    let r ← code eax.toNat m.kernel eax ebx
    -- `add esp, 8` takes the arguments away
    return ⟨{ m.regs with eax := r.eax, ebx := ebx, ecx := r.ecx, edx := r.edx },
      (r.vector :: r.error :: m.stack).drop 2, r.kernel⟩
  else throw (.wild "interrupt_func_table")

/-- What the processor pushes. -/
def Program.saved (p : Program) : List Word :=
  p.eip :: p.cs :: p.eflags :: match p.user with
    | some (esp, ss) => [esp, ss]
    | none => []

/-- `iret`. -/
def iret (m : Machine σ) : C (Program × List Word × σ) :=
  match m.stack with
  | eip :: cs :: eflags :: stack =>
    if h : cs &&& 3 = 3 then
      match stack with
      | esp :: ss :: stack =>
        return (⟨m.regs, eip, cs, eflags, some (esp, ss), iff_of_true rfl h⟩, stack, m.kernel)
      | _ => throw (.wild "stack")
    else return (⟨m.regs, eip, cs, eflags, none, iff_of_false (Bool.false_ne_true) h⟩, stack, m.kernel)
  | _ => throw (.wild "stack")

/-- An interrupt with the vector `v`: `stack` is the kernel's, and `error` the code if there is one. -/
def takeInterrupt (code : Handlers σ) (v : ℕ) (error : Word) (p : Program) (stack : List Word) (k : σ) :
    C (Program × List Word × σ) := do
  let stack := p.saved ++ stack
  let stack := if pushesError v then error :: stack else stack
  let stack := if expectsError v then stack else rdixMagic :: stack
  let m ← enterPart.foldlM (fun m i => plain i m) ⟨p.regs, .ofNat 32 v :: stack, k⟩
  let m ← callHandler code m
  let m ← exitPart.foldlM (fun m i => plain i m) m
  iret m

/-! ## What should happen -/

/-- The handler of the vector runs, and the program goes on. -/
def handled (code : Handlers σ) (v : ℕ) (error : Word) (p : Program) (stack : List Word) (k : σ) :
    C (Program × List Word × σ) := do
  let r ← code v k (.ofNat 32 v) (if pushesError v then error else rdixMagic)
  return (p, stack, r.kernel)

/-- A program with interrupts: what it does before each of them, the vector and the error code. -/
def runInterrupts (take : ℕ → Word → Program → List Word → σ → C (Program × List Word × σ)) :
    List ((Program → Program) × ℕ × Word) → Program → List Word → σ → C (Program × List Word × σ)
  | [], p, stack, k => return (p, stack, k)
  | (f, v, error) :: l, p, stack, k => do
    let (p, stack, k) ← take v error (f p) stack k
    runInterrupts take l p stack k

/-! ## The way in and the way back -/

/-- What `interrupt_handler` pushes. -/
def pushedRegs (r : Regs) : List Word :=
  [r.edi, r.esi, r.ebp, 0, r.ebx, r.edx, r.ecx, r.eax, r.gs.setWidth 32, r.fs.setWidth 32, r.es.setWidth 32,
    r.ds.setWidth 32]

theorem enter_exec (r : Regs) (stack : List Word) (k : σ) :
    enterPart.foldlM (fun m i => plain i m) ⟨r, stack, k⟩ = .ok ⟨r, pushedRegs r ++ stack, k⟩ := by
  simp only [enterPart, List.foldlM_cons, List.foldlM_nil, plain, Instr.exec, pure_eq_ok, ok_bind]
  rfl

/-- **What has been pushed is loaded again**, and two words are dropped. -/
theorem exit_exec (r r' : Regs) (a b : Word) (stack : List Word) (k : σ) :
    exitPart.foldlM (fun m i => plain i m) ⟨r', pushedRegs r ++ a :: b :: stack, k⟩ = .ok ⟨r, stack, k⟩ := by
  show Except.ok (Machine.mk { r with
    ds := (r.ds.setWidth 32).setWidth 16
    es := (r.es.setWidth 32).setWidth 16
    fs := (r.fs.setWidth 32).setWidth 16
    gs := (r.gs.setWidth 32).setWidth 16 } stack k) = _
  simp only [setWidth_seg]

theorem iret_saved (p : Program) (stack : List Word) (k : σ) :
    iret ⟨p.regs, p.saved ++ stack, k⟩ = .ok (p, stack, k) := by
  obtain ⟨regs, eip, cs, eflags, user, privilege⟩ := p
  cases user with
  | none =>
    have hcs : ¬ cs &&& 3 = 3 := fun h => Bool.false_ne_true (privilege.2 h)
    show dite _ _ _ = _
    rw [dif_neg hcs]
    rfl
  | some e =>
    have hcs : cs &&& 3 = 3 := privilege.1 rfl
    show dite _ _ _ = _
    rw [dif_pos hcs]
    rfl

variable {code : Handlers σ} {v : ℕ} {error : Word} {p : Program} {stack : List Word} {k : σ}

theorem callHandler_eq (r : Regs) (w : Word) (hv : v < entryNum) :
    callHandler code ⟨r, pushedRegs r ++ .ofNat 32 v :: w :: stack, k⟩ = do
      let d ← code v k (.ofNat 32 v) w
      return ⟨{ r with eax := d.eax, ebx := w, ecx := d.ecx, edx := d.edx },
        pushedRegs r ++ .ofNat 32 v :: w :: stack, d.kernel⟩ := by
  have hnat : (BitVec.ofNat 32 v).toNat = v := by
    rw [BitVec.toNat_ofNat]
    exact Nat.mod_eq_of_lt (hv.trans (by decide))
  have h12 : (pushedRegs r ++ BitVec.ofNat 32 v :: w :: stack)[12]? = some (BitVec.ofNat 32 v) := rfl
  have h13 : (pushedRegs r ++ BitVec.ofNat 32 v :: w :: stack)[13]? = some w := rfl
  unfold callHandler
  dsimp only
  rw [h12, h13, deref_some, ok_bind, deref_some, ok_bind, hnat, if_pos hv]
  rfl

/-- **The words on the stack**: the handler has the first as its error code, and `iret` finds the rest. -/
theorem takeInterrupt_words {w : Word} {rest : List Word} (code : Handlers σ) (p : Program) (k : σ)
    (hv : v < entryNum)
    (hwords : (if expectsError v then (if pushesError v then error :: (p.saved ++ stack) else p.saved ++ stack)
      else rdixMagic :: if pushesError v then error :: (p.saved ++ stack) else p.saved ++ stack) = w :: rest) :
    takeInterrupt code v error p stack k =
      code v k (.ofNat 32 v) w >>= fun d => iret ⟨p.regs, rest, d.kernel⟩ := by
  unfold takeInterrupt
  dsimp only
  rw [hwords, enter_exec, ok_bind, callHandler_eq _ _ hv]
  cases code v k (.ofNat 32 v) w with
  | error e => rfl
  | ok d =>
    rw [ok_bind, ok_bind, pure_eq_ok, ok_bind, exit_exec]
    rfl

/-- The entry expects an error code just where the processor pushes one. -/
theorem takeInterrupt_handled (code : Handlers σ) (error : Word) (p : Program) (stack : List Word) (k : σ)
    (hv : v < entryNum) (h : pushesError v = expectsError v) :
    takeInterrupt code v error p stack k = handled code v error p stack k := by
  have hwords : (if expectsError v then (if pushesError v then error :: (p.saved ++ stack) else p.saved ++ stack)
      else rdixMagic :: if pushesError v then error :: (p.saved ++ stack) else p.saved ++ stack) =
      (if pushesError v then error else rdixMagic) :: (p.saved ++ stack) := by
    rw [h]
    cases expectsError v <;> rfl
  rw [takeInterrupt_words code p k hv hwords, handled]
  simp only [iret_saved, pure_eq_ok]

theorem pushesError_eq_iff (hv : v < entryNum) : pushesError v = expectsError v ↔ v ≠ 8 := by
  have hall : ∀ n < 0x40, pushesError n = expectsError n ↔ n ≠ 8 := by decide
  exact hall v hv

/-- After a double fault the error code is taken for `eip`. -/
theorem takeInterrupt_doubleFault (code : Handlers σ) (error : Word) (p : Program) (stack : List Word) (k : σ) :
    takeInterrupt code 8 error p stack k =
      code 8 k 8 rdixMagic >>= fun d => iret ⟨p.regs, error :: (p.saved ++ stack), d.kernel⟩ :=
  takeInterrupt_words code p k (by decide) rfl

/-- A program of the kernel, at address 0. -/
def kernelProgram : Program :=
  ⟨⟨0, 0, 0, 0, 0, 0, 0, 0, 0, 0, 0⟩, 0, 0, 0, none, by decide⟩

/-- **Interrupts are transparent**: whatever program is interrupted, in any order and by any of the vectors
    `V`, each time the handler of the vector runs with the error code, and the program goes on as it was and on
    the same stack, exactly if the double fault is not among them. -/
theorem transparent_iff [Inhabited σ] (V : Set ℕ) :
    (∀ (code : Handlers σ) (l : List ((Program → Program) × ℕ × Word)) (p : Program) (stack : List Word) (k : σ),
      (∀ e ∈ l, e.2.1 ∈ V ∧ e.2.1 < entryNum) →
      runInterrupts (takeInterrupt code) l p stack k = runInterrupts (handled code) l p stack k) ↔ 8 ∉ V := by
  constructor
  · intro h h8
    let code : Handlers σ := fun _ k a b => .ok ⟨k, 0, 0, 0, a, b⟩
    have hone := h code [(id, 8, 1)] kernelProgram [] default (by
      intro e he
      obtain rfl := List.mem_singleton.1 he
      exact ⟨h8, by decide⟩)
    unfold runInterrupts at hone
    rw [takeInterrupt_doubleFault] at hone
    have heip : (1 : Word) = 0 := congrArg (fun q : Program × List Word × σ => q.1.eip) (Except.ok.inj hone)
    exact absurd heip (by decide)
  · intro h8 code l p stack k hl
    induction l generalizing p stack k with
    | nil => rfl
    | cons e l ih =>
      obtain ⟨f, v, error⟩ := e
      obtain ⟨hV, hv⟩ := hl _ List.mem_cons_self
      have hne : v ≠ 8 := by
        rintro rfl
        exact h8 hV
      rw [runInterrupts, runInterrupts, takeInterrupt_handled code error (f p) stack k hv
        ((pushesError_eq_iff hv).2 hne)]
      refine bind_congr fun r => ?_
      exact ih r.1 r.2.1 r.2.2 fun e he => hl e (List.mem_cons_of_mem _ he)

end Exec

end Rdix.Syscall
