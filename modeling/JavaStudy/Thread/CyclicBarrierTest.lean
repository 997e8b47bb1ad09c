/-
# `CyclicBarrierTest`: workers that compute a board in rounds

A worker sets a new value for each cell of its board, waits for the others at the barrier, and goes
on until its board has converged.  `setNewValue` writes the cell that it is called for into the two
fields that say how large the board is, and the loops over the cells read their bounds from these.
So a round sets one cell and leaves a board of no cells (`round_eq`), and what it leaves does not
converge: the value of the cell (0, 0) is 0.

Sections 1 and 2 are a worker by itself, at whatever board; section 3 is the whole test, where a
worker's steps are those of its own loop (`reachable_board`).
-/
import JavaStudy.Lib.JavaText
import JavaStudy.Lib.Machine

namespace JavaStudy

open JavaText

namespace CyclicBarrierTest

/-! ## 1. The loop of a worker -/

/-- The generator of `java.util.Random`: the next seed. -/
def nextSeed (seed : BitVec 48) : BitVec 48 := seed * 0x5DEECE66D + 0xB

/-- `new Random(seed).nextInt()`. -/
def nextInt (seed : BitVec 64) : JInt :=
  (nextSeed ((seed ^^^ 0x5DEECE66D).setWidth 48) >>> 16).setWidth 32

/-- The field `parentBoard` is written by `getSubBoard` and never read. -/
structure Board where
  maxX : JInt
  maxY : JInt
  value : JInt
  deriving DecidableEq

namespace Board

/-- What is printed. -/
def commitNewValues (board : Board) : JString :=
  ['最', '新', '的', '值', '为', '：'].map unit ++ Integer.toString board.value

def hasCoverged (board : Board) : Bool := (200 : JInt).slt board.value

def setNewValue (_ : Board) (x y value : JInt) : Board where
  maxX := x
  maxY := y
  value := value

@[simp] theorem setNewValue_maxX (board : Board) (x y value : JInt) :
    (board.setNewValue x y value).maxX = x := rfl

@[simp] theorem setNewValue_maxY (board : Board) (x y value : JInt) :
    (board.setNewValue x y value).maxY = y := rfl

/-- The fields of a new `Board` are 0, whatever the parent. -/
def getSubBoard (_ : Board) (_count _mun : JInt) : Board where
  maxX := 0
  maxY := 0
  value := 0

end Board

def computeValue (x y : JInt) : JInt :=
  let randomX := nextInt 100
  let randomy := nextInt 100
  randomX * x + randomy * y

/-- A counter below its bound does not overflow. -/
theorem toInt_succ {x bound : JInt} (h : x.slt bound = true) : (x + 1).toInt = x.toInt + 1 := by
  have hlt := BitVec.slt_iff_toInt_lt.mp h
  have hle := x.le_toInt
  have hbound := bound.toInt_lt
  have hone : (1 : JInt).toInt = 1 := rfl
  rw [BitVec.toInt_add, hone]
  refine Int.bmod_eq_of_le ?_ ?_
  · omega
  · omega

theorem succ_not_slt {x bound : JInt} (h : x.slt bound = true) : (x + 1).slt x = false := by
  rw [Bool.eq_false_iff, ne_eq, BitVec.slt_iff_toInt_lt, toInt_succ h]
  omega

/-- The inner loop of `Worker.run`, from `y` on: the board after it, and the cells for which
`setNewValue` is called. -/
def forY (x y : JInt) (board : Board) : Board × List (JInt × JInt) :=
  if y.slt board.maxY then
    let r := forY x (y + 1) (board.setNewValue x y (computeValue x y))
    (r.1, (x, y) :: r.2)
  else (board, [])
termination_by (board.maxY.toInt - y.toInt).toNat
decreasing_by
  rename_i h
  have hlt := BitVec.slt_iff_toInt_lt.mp h
  rw [toInt_succ h, Board.setNewValue_maxY]
  omega

/-- The bound is overwritten, so there is one cell at most. -/
theorem forY_eq (x y : JInt) (board : Board) : forY x y board =
    if y.slt board.maxY then (board.setNewValue x y (computeValue x y), [(x, y)])
    else (board, []) := by
  rw [forY]
  split
  · rename_i h
    rw [forY, Board.setNewValue_maxY, succ_not_slt h]
    rfl
  · rfl

/-- The outer loop, from `x` on. -/
def forX (x : JInt) (board : Board) : Board × List (JInt × JInt) :=
  if x.slt board.maxX then
    let r := forY x 0 board
    let r' := forX (x + 1) r.1
    (r'.1, r.2 ++ r'.2)
  else (board, [])
termination_by (board.maxX.toInt - x.toInt).toNat
decreasing_by
  rename_i h
  have hlt := BitVec.slt_iff_toInt_lt.mp h
  rw [toInt_succ h, forY_eq]
  split
  · simp only [Board.setNewValue_maxX]
    omega
  · dsimp only
    omega

/-- The two loops of a round. -/
def round (board : Board) : Board × List (JInt × JInt) := forX 0 board

/-- Without a row there is nothing to set. -/
theorem forX_of_no_row {x : JInt} {board : Board} (h : (0 : JInt).slt board.maxY = false) :
    forX x board = (board, []) := by
  fun_induction forX x board with
  | case1 x board hx r r' ih =>
    have hr : r = (board, []) := by
      change forY x 0 board = (board, [])
      rw [forY_eq, h]
      rfl
    rw [hr] at ih ⊢
    simp only [r', hr, ih h, List.append_nil]
  | case2 x board hx => rfl

theorem forX_of_cell {x : JInt} {board : Board} (hx : x.slt board.maxX = true)
    (hy : (0 : JInt).slt board.maxY = true) :
    forX x board = (board.setNewValue x 0 (computeValue x 0), [(x, 0)]) := by
  have hend : forX (x + 1) (board.setNewValue x 0 (computeValue x 0)) =
      (board.setNewValue x 0 (computeValue x 0), []) := by
    rw [forX, Board.setNewValue_maxX, succ_not_slt hx]
    rfl
  rw [forX, if_pos hx]
  simp only [forY_eq, if_pos hy, hend, List.append_nil]

theorem computeValue_zero : computeValue 0 0 = 0 := by
  decide

/-- **What a round does**: with a cell, the board is that of no cells and the value 0 after it. -/
theorem round_eq (board : Board) : round board =
    if (0 : JInt).slt board.maxX && (0 : JInt).slt board.maxY then
      ({ maxX := 0, maxY := 0, value := 0 }, [(0, 0)])
    else (board, []) := by
  cases hy : (0 : JInt).slt board.maxY with
  | false =>
    rw [round, forX_of_no_row hy, Bool.and_false]
    rfl
  | true =>
    cases hx : (0 : JInt).slt board.maxX with
    | false =>
      rw [round, forX, hx]
      rfl
    | true =>
      rw [round, forX_of_cell hx hy, computeValue_zero]
      rfl

/-! ## 2. From round to round -/

/-- What `barrier.await` does; both exceptions are caught, and the loop goes on. -/
inductive Await where
  | tripped
  | interrupted
  | broken
  deriving DecidableEq

/-- `Worker.run`, a round to a step. -/
def run (board : Board) : Machine Board Await where
  init := board
  step board _ := if board.hasCoverged then none else some (round board).1

/-- The barrier always trips. -/
def Trips (_ : Board) (await : Await) : Prop := await = .tripped

/-- A round calls `setNewValue` once for each of the cells that there are when it starts. -/
def Covers (board : Board) : Prop :=
  ∀ x y : JInt, 0 ≤ x.toInt → x.toInt < board.maxX.toInt → 0 ≤ y.toInt →
    y.toInt < board.maxY.toInt → (round board).2.count (x, y) = 1

/-- The loop ends, and until then every round covers the board that it starts with. -/
structure Completes (board : Board) : Prop where
  converges : ∃ b, (run board).Within Trips b ∧ b.hasCoverged = true
  covers : ∀ b, (run board).Within Trips b → b.hasCoverged = false → Covers b

theorem hasCoverged_iff {board : Board} : board.hasCoverged = true ↔ 200 < board.value.toInt :=
  BitVec.slt_iff_toInt_lt

theorem step_run {board b b' : Board} {await : Await} (h : (run board).step b await = some b') :
    b.hasCoverged = false ∧ b' = (round b).1 := by
  change (if b.hasCoverged then none else some (round b).1) = some b' at h
  split at h
  · cases h
  · rename_i hb
    cases h
    exact ⟨Bool.not_eq_true _ ▸ hb, rfl⟩

/-- A round does not make a board converge. -/
theorem hasCoverged_round {board : Board} (h : board.hasCoverged = false) :
    (round board).1.hasCoverged = false := by
  rw [round_eq]
  split
  · rfl
  · exact h

theorem hasCoverged_reachable {board b : Board} (h : board.hasCoverged = false)
    (hb : (run board).Reachable b) : b.hasCoverged = false := by
  refine Machine.Reachable.induct (I := fun b => b.hasCoverged = false) h ?_ hb
  intro b await b' _ _ hstep
  obtain ⟨hb, rfl⟩ := step_run hstep
  exact hasCoverged_round hb

/-- **Which boards a round covers**: those without a cell, and those with one. -/
theorem covers_iff (board : Board) : Covers board ↔
    board.maxX.toInt ≤ 0 ∨ board.maxY.toInt ≤ 0 ∨ board.maxX.toInt = 1 ∧ board.maxY.toInt = 1 := by
  have hzero : (0 : JInt).toInt = 0 := rfl
  by_cases hcell : 0 < board.maxX.toInt ∧ 0 < board.maxY.toInt
  · have hround : (round board).2 = [(0, 0)] := by
      rw [round_eq, if_pos]
      rw [Bool.and_eq_true, BitVec.slt_iff_toInt_lt, BitVec.slt_iff_toInt_lt]
      exact hcell
    constructor
    · intro h
      -- a second column or row is never set
      have hx : ¬1 < board.maxX.toInt := by
        intro hlt
        have hcount := h 1 0 (by decide) hlt (by decide) hcell.2
        rw [hround] at hcount
        exact absurd hcount (by decide)
      have hy : ¬1 < board.maxY.toInt := by
        intro hlt
        have hcount := h 0 1 (by decide) hcell.1 (by decide) hlt
        rw [hround] at hcount
        exact absurd hcount (by decide)
      omega
    · rintro (h | h | h)
      · omega
      · omega
      · intro x y hx hx' hy hy'
        have hx0 : x = 0 := BitVec.eq_of_toInt_eq (by omega)
        have hy0 : y = 0 := BitVec.eq_of_toInt_eq (by omega)
        rw [hround, hx0, hy0]
        rfl
  · refine iff_of_true ?_ (by omega)
    intro x y hx hx' hy hy'
    omega

/-- **A worker comes to the end of its loop exactly if its board has converged at the start.** -/
theorem run_completes_iff (board : Board) : Completes board ↔ 200 < board.value.toInt := by
  rw [← hasCoverged_iff]
  constructor
  · intro h
    obtain ⟨b, hwithin, hb⟩ := h.converges
    by_contra hboard
    rw [Bool.not_eq_true] at hboard
    rw [hasCoverged_reachable hboard hwithin.reachable] at hb
    exact absurd hb (by decide)
  · intro h
    refine ⟨⟨board, ⟨[], rfl, trivial⟩, h⟩, ?_⟩
    rintro b ⟨schedule, hrun, -⟩ hb
    -- there is no round
    cases schedule with
    | nil =>
      cases hrun
      exact absurd (h.symm.trans hb) (by decide)
    | cons await schedule =>
      obtain ⟨b', hstep, -⟩ := Option.bind_eq_some_iff.mp hrun
      exact absurd (h.symm.trans (step_run hstep).1) (by decide)

/-- **The board that `getSubBoard` returns does not converge**, and of a larger one a round sets one
cell. -/
theorem run_of_getSubBoard :
    ¬ Completes (Board.getSubBoard ⟨3, 3, 0⟩ 4 0) ∧ ¬ Covers ⟨3, 3, 0⟩ := by
  constructor
  · intro h
    obtain ⟨b, hwithin, hb⟩ := h.converges
    rw [hasCoverged_reachable rfl hwithin.reachable] at hb
    exact absurd hb (by decide)
  · rw [covers_iff]
    decide

/-! ## 3. The test -/

inductive Place where
  /-- At the head of the loop. -/
  | looping
  | awaiting
  | ended
  deriving DecidableEq

structure Worker where
  board : Board
  place : Place
  deriving DecidableEq

structure State (n : Nat) where
  workers : Fin n → Worker
  /-- What the barrier action has printed. -/
  printed : List JString

variable {n : Nat}

def State.set (s : State n) (i : Fin n) (worker : Worker) : State n :=
  { s with workers := Function.update s.workers i worker }

variable (mainBoard : Board)

/-- The barrier is tripped by the last worker that comes to it. -/
def State.await (s : State n) : State n :=
  if ∀ i, (s.workers i).place = .awaiting then
    { workers := fun i => { s.workers i with place := .looping }
      printed := s.printed ++ [mainBoard.commitNewValues] }
  else s

/-- The worker `i` comes to the head of its loop. -/
def step (s : State n) (i : Fin n) : Option (State n) :=
  let worker := s.workers i
  match worker.place with
  | .looping =>
    if worker.board.hasCoverged then
      some (s.set i { worker with place := .ended })
    else
      some ((s.set i { board := (round worker.board).1, place := .awaiting }).await mainBoard)
  | _ => none

/-- `start`, with one worker for each of `n` processors. -/
def start (n : Nat) : Machine (State n) (Fin n) where
  init :=
    { workers := fun i =>
        { board := mainBoard.getSubBoard (BitVec.ofNat 32 n) (BitVec.ofNat 32 i)
          place := .looping }
      printed := [] }
  step := step mainBoard

variable {mainBoard}

@[simp] theorem set_self (s : State n) (i : Fin n) (worker : Worker) :
    (s.set i worker).workers i = worker :=
  Function.update_self ..

theorem set_of_ne {i j : Fin n} (h : j ≠ i) (s : State n) (worker : Worker) :
    (s.set i worker).workers j = s.workers j :=
  Function.update_of_ne h ..

theorem await_board (s : State n) (j : Fin n) :
    ((s.await mainBoard).workers j).board = (s.workers j).board := by
  unfold State.await
  split
  · rfl
  · rfl

/-- What a worker does at the head of its loop. -/
theorem step_cases {s t : State n} {i : Fin n} (h : step mainBoard s i = some t) :
    (s.workers i).place = .looping ∧
      ((s.workers i).board.hasCoverged = true ∧
        t = s.set i { (s.workers i) with place := .ended } ∨
      (s.workers i).board.hasCoverged = false ∧
        t = (s.set i { board := (round (s.workers i).board).1, place := .awaiting }).await
          mainBoard) := by
  unfold step at h
  dsimp only at h
  split at h
  · rename_i hplace
    refine ⟨hplace, ?_⟩
    split at h
    · rename_i hboard
      cases h
      exact Or.inl ⟨hboard, rfl⟩
    · rename_i hboard
      cases h
      exact Or.inr ⟨Bool.not_eq_true _ ▸ hboard, rfl⟩
  · cases h

/-- **A worker of the test does what its own loop does**: the others and the main board do not
change its board. -/
theorem reachable_board {s : State n} (h : (start mainBoard n).Reachable s) (j : Fin n) :
    (run (mainBoard.getSubBoard (BitVec.ofNat 32 n) (BitVec.ofNat 32 j))).Reachable
      (s.workers j).board := by
  refine Machine.Reachable.simulate (fun s : State n => (s.workers j).board)
    Machine.reachable_init ?_ h
  intro s i t _ hstep
  rcases step_cases hstep with ⟨-, ⟨-, rfl⟩ | ⟨hboard, rfl⟩⟩
  · refine Or.inl ?_
    by_cases hij : j = i
    · rw [hij, set_self]
    · rw [set_of_ne hij]
  · rw [await_board]
    by_cases hij : j = i
    · refine Or.inr ⟨.tripped, ?_⟩
      rw [hij, set_self]
      exact if_neg (by rw [hboard]; decide)
    · rw [set_of_ne hij]
      exact Or.inl rfl

/-- Nobody has ended, and somebody is not at the barrier. -/
structure Turning (s : State n) : Prop where
  running : ∀ i, (s.workers i).place ≠ .ended
  looping : ∃ i, (s.workers i).place = .looping

theorem turning_await {s : State n} (hn : 0 < n) (h : ∀ i, (s.workers i).place ≠ .ended) :
    Turning (s.await mainBoard) := by
  unfold State.await
  split
  · exact ⟨fun _ => nofun, ⟨0, hn⟩, rfl⟩
  · rename_i hall
    refine ⟨h, ?_⟩
    rw [not_forall] at hall
    obtain ⟨i, hi⟩ := hall
    cases hplace : (s.workers i).place with
    | looping => exact ⟨i, hplace⟩
    | awaiting => exact absurd hplace hi
    | ended => exact absurd hplace (h i)

theorem reachable_turning (hn : 0 < n) {s : State n} (h : (start mainBoard n).Reachable s) :
    Turning s := by
  refine Machine.Reachable.induct ⟨fun _ => nofun, ⟨0, hn⟩, rfl⟩ ?_ h
  intro s i t hs hturning hstep
  have hboard := hasCoverged_reachable rfl (reachable_board hs i)
  rcases step_cases hstep with ⟨-, ⟨hconverged, -⟩ | ⟨-, rfl⟩⟩
  · exact absurd (hconverged.symm.trans hboard) (by decide)
  · refine turning_await hn ?_
    intro j
    by_cases hij : j = i
    · rw [hij, set_self]
      exact nofun
    · rw [set_of_ne hij]
      exact hturning.running j

/-- **The test goes on for ever**: whatever has happened, no worker has ended and one can go on. -/
theorem start_goes_on (hn : 0 < n) {s : State n} (h : (start mainBoard n).Reachable s) :
    (∀ i, (s.workers i).place ≠ .ended) ∧ ∃ i t, (start mainBoard n).step s i = some t := by
  obtain ⟨hrunning, i, hi⟩ := reachable_turning hn h
  have hboard := hasCoverged_reachable rfl (reachable_board h i)
  refine ⟨hrunning, i, ?_⟩
  change ∃ t, step mainBoard s i = some t
  unfold step
  simp only [hi, hboard]
  exact ⟨_, rfl⟩

end CyclicBarrierTest
end JavaStudy
