import Mathlib.Algebra.GroupWithZero.Nat

/-!
# NimbleOS.Basic

What the modules of the kernel share: the constants of the 32-bit machine, its
wrapping arithmetic, and the ways in which a kernel call fails to return.

A C function is a function of the state it reads, with result
`Except Halt (value × state)`.  Machine words are `Nat`s; where the source can
wrap, the model reduces with `u32` at the same place.
-/

namespace NimbleOS

/-- The value of a C `uint32_t` expression. -/
def u32 (n : Nat) : Nat := n % 2 ^ 32

theorem u32_of_lt (h : n < 2 ^ 32) : u32 n = n := Nat.mod_eq_of_lt h

/-- `a - b` of two `uint32_t`s. -/
def u32Sub (a b : Nat) : Nat := (a + 2 ^ 32 - b) % 2 ^ 32

/-- `PMM_BLOCK_SIZE` and `PAGE_SIZE`. -/
def pageSize : Nat := 4096

/-- `KERNEL_BASE_VIRT`, `KERNEL_OFFSET` in the linker script. -/
def kernelBaseVirt : Nat := 0xC0000000

/-- Why a call does not return to its caller. -/
inductive Halt where
  /-- `pmm_alloc_page`: out of physical memory. -/
  | outOfMemory
  /-- `paging_get_page`: the address is not page-aligned. -/
  | unaligned
  /-- `paging_map_page`: the virtual address is already mapped. -/
  | alreadyMapped
  /-- An access to an unmapped address: `paging_fault_handler` aborts. -/
  | pageFault
  /-- A store into the kernel's own image or heap, whose contents the model
  keeps as Lean state: nothing is known about what runs afterwards. -/
  | kernelOverwritten
  /-- A directory is loaded that does not have the kernel's image and heap where the
  current one has them: nothing is known about what runs afterwards. -/
  | kernelUnmapped
  /-- `proc_exit_current_process`: the last process alive was killed. -/
  | lastProcess
  /-- A pointer to a process is `NULL` or dangling. -/
  | noProcess
  /-- A store outside the array it is meant for. -/
  | outOfBounds
  /-- A loop used up the fuel it was given. -/
  | outOfFuel
  /-- An `assert` failed. -/
  | assertion
  deriving DecidableEq, Repr

/-- A computation in two steps returns if both steps do. -/
theorem bind_eq_ok {x : Except ε α} {f : α → Except ε β} :
    (x >>= f) = .ok b ↔ ∃ a, x = .ok a ∧ f a = .ok b := by
  cases x with
  | error e => simp [bind, Except.bind]
  | ok a => simp [bind, Except.bind]

/-- What `f` reads is among what `g` keeps. -/
theorem map_eq_of_map_eq {x y : Option α} {f : α → β} {g : α → α} (h : x.map g = y.map g)
    (hf : ∀ a, f (g a) = f a) : x.map f = y.map f := by
  have hmap := congrArg (Option.map f) h
  rw [Option.map_map, Option.map_map] at hmap
  rwa [show f ∘ g = f from funext hf] at hmap

end NimbleOS
