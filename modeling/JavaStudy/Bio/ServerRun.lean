/-
# `TcpIpBIOServerThread.run` at the end of the stream

One thread alone, on a connection on which nothing fails: the client has sent its lines and then
closed its side, so `readLine` returns one line after another and from then on `null`.  Each step is
one of `serve` or `free`, so the run is one that the server makes (`Agrees.after`).

`while(true)` has no exit: `null` only sends the loop round again.  The `finally` clause, which
gives the runnable back to the pool, is reached by an exception and by nothing else.

* `Inv`: every line that was read is answered or in hand, and the thread is in its loop.
* `run_replies_and_stays`: so the replies are right, and the thread never ends.
* `never_returned`: the same among all the other threads of the server.  The runnable of a client
  that has said what it had to say and gone is lost to the pool.
-/
import JavaStudy.Bio.Server

namespace JavaStudy
namespace TcpIpBIOServer

open JavaText
open TcpIpBIOServerThreadPool (Runnable Pool)

/-! ## 1. A connection on which nothing fails -/

structure Session where
  pool : Pool
  runnable : TcpIpBIOServerThread
  thread : Thread
  /-- The lines that are still to be read; the stream ends behind them. -/
  input : List JString
  /-- The lines that were sent to the client. -/
  output : List JString

/-- The next step of `run`. -/
def Session.next (s : Session) : Option ThreadAct :=
  match s.thread.pc with
  | .started => some .getInputStream
  | .opened => some .getOutputStream
  | .reading => some (.readLine s.input.head?)
  | .parsing _ => some .getObjFromStr
  | .dealing _ => some .dealData
  | .replying _ => some .println
  | .logging _ => some .log
  | .catching => some .report
  | .freeing => some .get
  | .releasing => some .put
  | .ended => none

/-- What a step leaves of the input. -/
def ThreadAct.rest (input : List JString) : ThreadAct → List JString
  | .readLine _ => input.tail
  | _ => input

/-- What a step sends. -/
def ThreadAct.sent (runnable : TcpIpBIOServerThread) : ThreadAct → List JString
  | .println => [runnable.socketData.getStrFromObj]
  | _ => []

/-- A thread that has ended stays as it is. -/
def Session.step (s : Session) : Session :=
  match s.next with
  | none => s
  | some a =>
    match serve s.runnable s.thread a with
    | some (runnable, thread) =>
      { s with runnable, thread, input := a.rest s.input, output := s.output ++ a.sent s.runnable }
    | none =>
      match free s.pool s.thread a with
      | some (pool, thread) => { s with pool, thread }
      | none => s

/-- The session after so many steps. -/
def Session.after (s : Session) : Nat → Session
  | 0 => s
  | n + 1 => (s.after n).step

/-- The runnable `k` has been lent, has got its socket, and its thread is started. -/
def Session.start (pool : Pool) (k : Runnable) (socketData : SocketData) (socket : Socket)
    (lines : List JString) : Session :=
  ⟨pool, ⟨socketData, some socket⟩, Thread.start k (some socket), lines, []⟩

/-! ## 2. What `run` has to do -/

/-- The line `clientNum~serverNum`, with any decimals that `Integer.valueOf` reads. -/
def Request (line : JString) (data : SocketData) : Prop :=
  ∃ first second, line = first ++ unit '~' :: second ∧
    Integer.parseInt first = .ok data.clientNum ∧ Integer.parseInt second = .ok data.serverNum

/-- `clientNum` comes back, and with it its double, which wraps. -/
def Answers (line reply : JString) : Prop :=
  ∃ data, Request line data ∧
    reply = SocketData.getStrFromObj ⟨data.clientNum, 2 * data.clientNum⟩

/-- One right reply for each line, in order; then `run` ends, and the runnable can be lent again. -/
def Session.Serves (s : Session) : Prop :=
  ∃ n, List.Forall₂ Answers s.input (s.after n).output ∧ (s.after n).thread.pc = .ended ∧
    (s.after n).pool.threadMap.get s.thread.runnable = some true

theorem request_getStrFromObj (data : SocketData) : Request data.getStrFromObj data :=
  ⟨_, _, rfl, parseInt_toString _, parseInt_toString _⟩

theorem Request.parsed {line : JString} {data : SocketData} (h : Request line data) :
    SocketData.getObjFromStr (some line) = .ok data := by
  obtain ⟨first, second, rfl, hfirst, hsecond⟩ := h
  have hnil : ∀ c ∈ ([] : JString), blank c = true := nofun
  simpa using SocketData.getObjFromStr_parts hfirst hsecond hnil hnil

/-! ## 3. The loop is not left -/

/-- Before the loop or in it. -/
def Pc.inLoop : Pc → Bool
  | .catching => false
  | .freeing => false
  | .releasing => false
  | .ended => false
  | _ => true

theorem Pc.ne_ended {pc : Pc} (hloop : pc.inLoop = true) : pc ≠ .ended := by
  rintro rfl
  cases hloop

/-- The line that was read and is not answered. -/
def Pc.inHand : Pc → List JString
  | .parsing readStr => [readStr]
  | .dealing readStr => [readStr]
  | .replying readStr => [readStr]
  | _ => []

/-- A thread in its loop has no step in `freeThread`. -/
theorem free_of_inLoop (pool : Pool) {th : Thread} (hloop : th.pc.inLoop = true) (a : ThreadAct) :
    free pool th a = none := by
  cases a with
  | get => exact if_neg fun hpc => absurd hloop (by simp [hpc, Pc.inLoop])
  | put => exact if_neg fun hpc => absurd hloop (by simp [hpc, Pc.inLoop])
  | _ => rfl

/-- **Only an exception leads out of the loop.** -/
theorem serve_inLoop {runnable runnable' : TcpIpBIOServerThread} {th th' : Thread} {a : ThreadAct}
    (hg : Good runnable th) (hloop : th.pc.inLoop = true) (hthrow : ∀ e, a ≠ .throw e)
    (hline : ∀ line ∈ th.pc.inHand, ∃ data, Request line data)
    (h : serve runnable th a = some (runnable', th')) : th'.pc.inLoop = true := by
  obtain ⟨socket, hgiven⟩ := hg.given
  have hsocket : runnable.socket = some socket := hg.socket.trans hgiven
  cases a with
  | getInputStream =>
    simp only [serve, hsocket, Option.ite_none_right_eq_some] at h
    obtain ⟨-, h⟩ := h
    cases h
    rfl
  | getOutputStream =>
    simp only [serve, hsocket, Option.ite_none_right_eq_some] at h
    obtain ⟨-, h⟩ := h
    cases h
    rfl
  | readLine readStr =>
    simp only [serve, Option.ite_none_right_eq_some] at h
    obtain ⟨hpc, h⟩ := h
    cases readStr with
    | some readStr =>
      cases h
      rfl
    | none =>
      cases h
      exact hloop
  | getObjFromStr =>
    simp only [serve] at h
    split at h
    · rename_i readStr hpc
      obtain ⟨data, hdata⟩ := hline readStr (by rw [hpc]; exact List.mem_singleton_self readStr)
      simp only [hdata.parsed] at h
      cases h
      rfl
    · exact absurd h (by simp)
  | dealData =>
    simp only [serve] at h
    split at h
    · cases h
      rfl
    · exact absurd h (by simp)
  | println =>
    simp only [serve] at h
    split at h
    · cases h
      rfl
    · exact absurd h (by simp)
  | log =>
    simp only [serve] at h
    split at h
    · cases h
      rfl
    · exact absurd h (by simp)
  | throw e => exact absurd rfl (hthrow e)
  | report =>
    simp only [serve, Option.ite_none_right_eq_some] at h
    exact absurd hloop (by simp [h.1, Pc.inLoop])
  | get => cases h
  | put => cases h

/-- In the loop there is always a next step, and it is none of an exception. -/
theorem Session.next_of_inLoop {s : Session} (hloop : s.thread.pc.inLoop = true) :
    ∃ a, s.next = some a ∧ (∀ e, a ≠ .throw e) ∧
      ∃ r, serve s.runnable s.thread a = some r := by
  unfold Session.next
  cases hpc : s.thread.pc with
  | started =>
    refine ⟨_, rfl, by simp, ?_⟩
    simp only [serve, if_pos hpc]
    split <;> exact ⟨_, rfl⟩
  | opened =>
    refine ⟨_, rfl, by simp, ?_⟩
    simp only [serve, if_pos hpc]
    split <;> exact ⟨_, rfl⟩
  | reading =>
    refine ⟨_, rfl, by simp, ?_⟩
    simp only [serve, if_pos hpc]
    split <;> exact ⟨_, rfl⟩
  | parsing readStr =>
    refine ⟨_, rfl, by simp, ?_⟩
    simp only [serve, hpc]
    split <;> exact ⟨_, rfl⟩
  | dealing readStr => exact ⟨_, rfl, by simp, by simp only [serve, hpc]; exact ⟨_, rfl⟩⟩
  | replying readStr => exact ⟨_, rfl, by simp, by simp only [serve, hpc]; exact ⟨_, rfl⟩⟩
  | logging readStr => exact ⟨_, rfl, by simp, by simp only [serve, hpc]; exact ⟨_, rfl⟩⟩
  | _ => exact absurd hloop (by simp [hpc, Pc.inLoop])

/-! ## 4. The account of the lines -/

/-- Every line was answered, or is in hand, or is still to be read. -/
structure Session.Inv (pool : Pool) (lines : List JString) (s : Session) : Prop where
  pool : s.pool = pool
  inLoop : s.thread.pc.inLoop = true
  good : Good s.runnable s.thread
  account : ∃ answered, lines = answered ++ s.thread.pc.inHand ++ s.input ∧
    List.Forall₂ Answers answered s.output

theorem Session.inv_start (pool : Pool) (k : Runnable) (socketData : SocketData) (socket : Socket)
    (lines : List JString) :
    (Session.start pool k socketData socket lines).Inv pool lines where
  pool := rfl
  inLoop := rfl
  good := ⟨⟨socket, rfl⟩, rfl, nofun, nofun, trivial⟩
  account := ⟨[], rfl, .nil⟩

theorem Session.head?_of_next {s : Session} {readStr : Option JString}
    (hpc : s.thread.pc = .reading) (h : s.next = some (.readLine readStr)) :
    s.input.head? = readStr := by
  unfold Session.next at h
  rw [hpc] at h
  cases h
  rfl

section
variable {pool : Pool} {lines : List JString} {s : Session}

theorem Session.Inv.inHand (hi : s.Inv pool lines) {line : JString}
    (hline : line ∈ s.thread.pc.inHand) : line ∈ lines := by
  obtain ⟨answered, hlines, -⟩ := hi.account
  rw [hlines]
  exact List.mem_append_left _ (List.mem_append_right _ hline)

/-- What the step of a session in order is. -/
theorem Session.Inv.step_eq (hi : s.Inv pool lines)
    (hlines : ∀ line ∈ lines, ∃ data, Request line data) :
    ∃ a runnable thread, s.next = some a ∧ Ran s.runnable s.thread a runnable thread ∧
      thread.pc.inLoop = true ∧
      s.step = { s with
        runnable, thread, input := a.rest s.input, output := s.output ++ a.sent s.runnable } := by
  obtain ⟨a, hnext, hthrow, ⟨runnable, thread⟩, hserve⟩ := Session.next_of_inLoop hi.inLoop
  have hloop : thread.pc.inLoop = true :=
    serve_inLoop hi.good hi.inLoop hthrow (fun line hline => hlines line (hi.inHand hline)) hserve
  refine ⟨a, runnable, thread, hnext, serve_ran hserve, hloop, ?_⟩
  simp only [Session.step, hnext, hserve]

/-- **A step keeps the account.** -/
theorem Session.Inv.step (hi : s.Inv pool lines)
    (hlines : ∀ line ∈ lines, ∃ data, Request line data) : s.step.Inv pool lines := by
  obtain ⟨a, runnable, thread, hnext, hran, hloop, hstep⟩ := hi.step_eq hlines
  obtain ⟨answered, haccount, hanswers⟩ := hi.account
  rw [hstep]
  refine ⟨hi.pool, hloop, hran.good hi.good, ?_⟩
  have hdata := hi.good.socketData
  -- a step that sends nothing and takes no line
  have hkept : List.Forall₂ Answers answered (s.output ++ []) := by
    rw [List.append_nil]
    exact hanswers
  cases hran with
  | read socket hpc hsocket =>
    rw [hpc] at haccount
    exact ⟨answered, haccount, hkept⟩
  | sendOut socket hpc hsocket =>
    rw [hpc] at haccount
    exact ⟨answered, haccount, hkept⟩
  | line readStr hpc =>
    rw [hpc] at haccount
    obtain ⟨rest, hinput⟩ := List.head?_eq_some_iff.mp (Session.head?_of_next hpc hnext)
    rw [hinput] at haccount ⊢
    refine ⟨answered, ?_, hkept⟩
    rw [haccount]
    simp [Pc.inHand, ThreadAct.rest]
  | eof hpc =>
    rw [hpc] at haccount
    have hinput : s.input = [] := List.head?_eq_none_iff.mp (Session.head?_of_next hpc hnext)
    rw [hinput] at haccount ⊢
    rw [hpc]
    exact ⟨answered, haccount, hkept⟩
  | parsed readStr socketData hpc hparse =>
    rw [hpc] at haccount
    exact ⟨answered, haccount, hkept⟩
  | dealt readStr hpc =>
    rw [hpc] at haccount
    exact ⟨answered, haccount, hkept⟩
  | replied readStr hpc =>
    rw [hpc] at haccount hdata
    have hmem : readStr ∈ lines := hi.inHand (by rw [hpc]; exact List.mem_singleton_self readStr)
    obtain ⟨data, hrequest⟩ := hlines readStr hmem
    obtain ⟨data', hparsed, hfield⟩ := hdata
    have heq : data' = data := by
      rw [hrequest.parsed] at hparsed
      exact (Except.ok.inj hparsed).symm
    have hanswer : Answers readStr s.runnable.socketData.getStrFromObj := by
      refine ⟨data, hrequest, ?_⟩
      rw [hfield, heq, SocketData.dealData, BitVec.mul_comm]
    refine ⟨answered ++ [readStr], ?_, List.rel_append hanswers (.cons hanswer .nil)⟩
    rw [haccount]
    simp [Pc.inHand, ThreadAct.rest]
  | logged readStr hpc =>
    rw [hpc] at haccount
    exact ⟨answered, haccount, hkept⟩
  | left a pc hpc hnew =>
    rcases hnew with rfl | rfl
    · cases hloop
    · cases hloop

theorem Session.Inv.after (hi : s.Inv pool lines)
    (hlines : ∀ line ∈ lines, ∃ data, Request line data) (n : Nat) :
    (s.after n).Inv pool lines := by
  induction n with
  | zero => exact hi
  | succ n ih => exact ih.step hlines

/-! ## 5. All lines are answered -/

/-- How many steps `run` is away from `readLine`. -/
def Pc.toReadLine : Pc → Nat
  | .started => 2
  | .opened => 1
  | .parsing _ => 4
  | .dealing _ => 3
  | .replying _ => 2
  | .logging _ => 1
  | _ => 0

/-- How many steps it takes until all lines are answered. -/
def Session.work (s : Session) : Nat := 5 * s.input.length + s.thread.pc.toReadLine

/-- **Every step takes one from the work that is left.** -/
theorem Session.Inv.work_step (hi : s.Inv pool lines)
    (hlines : ∀ line ∈ lines, ∃ data, Request line data) : s.step.work = s.work - 1 := by
  obtain ⟨a, runnable, thread, hnext, hran, hloop, hstep⟩ := hi.step_eq hlines
  rw [hstep, Session.work, Session.work]
  cases hran with
  | line readStr hpc =>
    obtain ⟨rest, hinput⟩ := List.head?_eq_some_iff.mp (Session.head?_of_next hpc hnext)
    rw [hinput, hpc]
    simp only [ThreadAct.rest, Pc.toReadLine, List.tail_cons, List.length_cons]
    omega
  | eof hpc =>
    have hinput : s.input = [] := List.head?_eq_none_iff.mp (Session.head?_of_next hpc hnext)
    rw [hinput, hpc]
    rfl
  | left a pc hpc hnew =>
    rcases hnew with rfl | rfl
    · cases hloop
    · cases hloop
  | read socket hpc hsocket =>
    rw [hpc]
    rfl
  | sendOut socket hpc hsocket =>
    rw [hpc]
    rfl
  | parsed readStr socketData hpc hparse =>
    rw [hpc]
    rfl
  | dealt readStr hpc =>
    rw [hpc]
    rfl
  | replied readStr hpc =>
    rw [hpc]
    rfl
  | logged readStr hpc =>
    rw [hpc]
    rfl

theorem Session.Inv.work_after (hi : s.Inv pool lines)
    (hlines : ∀ line ∈ lines, ∃ data, Request line data) (n : Nat) :
    (s.after n).work = s.work - n := by
  induction n with
  | zero => rfl
  | succ n ih => rw [Session.after, (hi.after hlines n).work_step hlines, ih, Nat.sub_sub]

/-- With no work left, the thread waits in `readLine` and every line has its reply. -/
theorem Session.Inv.answered (hi : s.Inv pool lines) (hwork : s.work = 0) :
    List.Forall₂ Answers lines s.output := by
  obtain ⟨answered, haccount, hanswers⟩ := hi.account
  have hloop := hi.inLoop
  rw [Session.work, Nat.add_eq_zero_iff] at hwork
  obtain ⟨hlength, hplace⟩ := hwork
  have hinput : s.input = [] := List.length_eq_zero_iff.mp (by omega)
  have hhand : s.thread.pc.inHand = [] := by
    cases hpc : s.thread.pc with
    | parsing readStr => exact absurd hplace (by simp [hpc, Pc.toReadLine])
    | dealing readStr => exact absurd hplace (by simp [hpc, Pc.toReadLine])
    | replying readStr => exact absurd hplace (by simp [hpc, Pc.toReadLine])
    | _ => rfl
  rw [hinput, hhand, List.append_nil, List.append_nil] at haccount
  rw [haccount]
  exact hanswers

/-- What is true of a run at any time: its thread lives, and the pool is as it was. -/
theorem Session.Inv.stays (hi : s.Inv pool lines)
    (hlines : ∀ line ∈ lines, ∃ data, Request line data) (n : Nat) :
    (s.after n).thread.pc ≠ .ended ∧ (s.after n).pool = pool := by
  have hn := hi.after hlines n
  exact ⟨Pc.ne_ended hn.inLoop, hn.pool⟩

end

/-- **`run` answers all its lines and never ends**: it is in its loop after any number of steps, and
its runnable is not given back. -/
theorem run_replies_and_stays (pool : Pool) (k : Runnable) (socketData : SocketData)
    (socket : Socket) (lines : List JString)
    (hlines : ∀ line ∈ lines, ∃ data, Request line data) :
    ¬ (Session.start pool k socketData socket lines).Serves ∧
    ∀ n, ((Session.start pool k socketData socket lines).after n).thread.pc ≠ .ended ∧
      ((Session.start pool k socketData socket lines).after n).pool = pool ∧
      (5 * lines.length + 2 ≤ n → List.Forall₂ Answers lines
        ((Session.start pool k socketData socket lines).after n).output) := by
  have hi := Session.inv_start pool k socketData socket lines
  refine ⟨?_, ?_⟩
  · rintro ⟨n, -, hended, -⟩
    exact (hi.stays hlines n).1 hended
  · intro n
    refine ⟨(hi.stays hlines n).1, (hi.stays hlines n).2, ?_⟩
    intro hn
    have hwork : ((Session.start pool k socketData socket lines).after n).work = 0 := by
      rw [hi.work_after hlines]
      exact Nat.sub_eq_zero_of_le hn
    exact (hi.after hlines n).answered hwork

/-- The pool after `init` and one `getThread`. -/
def lentPool : Pool :=
  (TcpIpBIOServerThreadPool.getThread [0] (TcpIpBIOServerThreadPool.init 0 .fresh)).1

/-- A line that is no request does end the thread, and then the runnable is given back. -/
example : ((Session.start lentPool 0 ⟨0, 0⟩ 0 [[unit 'x']]).after 6).thread.pc = .ended ∧
    ((Session.start lentPool 0 ⟨0, 0⟩ 0 [[unit 'x']]).after 6).pool.threadMap.get 0 = some true :=
  ⟨rfl, rfl⟩

/-- The line `7~0`. -/
def seven : JString := [unit '7', unit '~', unit '0']

theorem request_seven : ∀ line ∈ [seven], ∃ data, Request line data := by
  intro line hline
  rw [List.mem_singleton.mp hline]
  exact ⟨⟨7, 0⟩, [unit '7'], [unit '0'], rfl, rfl, rfl⟩

/-- `run_replies_and_stays` for a client that sends one request and closes its side. -/
theorem run_replies_and_stays_seven :
    ¬ (Session.start lentPool 0 ⟨0, 0⟩ 0 [seven]).Serves ∧
      List.Forall₂ Answers [seven]
        ((Session.start lentPool 0 ⟨0, 0⟩ 0 [seven]).after 7).output := by
  have hrun := run_replies_and_stays lentPool 0 ⟨0, 0⟩ 0 [seven] request_seven
  exact ⟨hrun.1, (hrun.2 7).2.2 (Nat.le_refl 7)⟩

/-- The client has its reply and is gone, and the thread that served it does not end. -/
theorem thread_outlives_client :
    ¬ ∀ (pool : Pool) (k : Runnable) (socketData : SocketData) (socket : Socket)
      (lines : List JString), pool.threadMap.get k = some false →
      (∀ line ∈ lines, ∃ data, Request line data) →
      (Session.start pool k socketData socket lines).Serves := by
  intro h
  obtain ⟨n, -, hended, -⟩ := h lentPool 0 ⟨0, 0⟩ 0 [seven] rfl request_seven
  exact ((Session.inv_start lentPool 0 ⟨0, 0⟩ 0 [seven]).stays request_seven n).1 hended

/-! ## 6. The same thread in the server -/

/-- Thread `i` of the server is the one of the session. -/
structure Session.Agrees (i : Nat) (s : Session) (server : State) : Prop where
  pool : server.pool = s.pool
  thread : server.threads[i]? = some s.thread
  runnable : server.runnables s.thread.runnable = s.runnable

theorem getElem?_set_of_some {threads : List Thread} {i : Nat} {th : Thread}
    (h : threads[i]? = some th) (th' : Thread) : (threads.set i th')[i]? = some th' := by
  obtain ⟨hlt, -⟩ := List.getElem?_eq_some_iff.mp h
  exact List.getElem?_set_self hlt

theorem free_runnable {pool pool' : Pool} {th th' : Thread} {a : ThreadAct}
    (h : free pool th a = some (pool', th')) : th'.runnable = th.runnable := by
  cases a with
  | get =>
    simp only [free, Option.ite_none_right_eq_some] at h
    obtain ⟨-, h⟩ := h
    split at h
    · cases h
      rfl
    · cases h
      rfl
  | put =>
    simp only [free, Option.ite_none_right_eq_some] at h
    obtain ⟨-, h⟩ := h
    cases h
    rfl
  | _ => cases h

/-- **Every step of a session is one that the server makes, or none at all.** -/
theorem Session.Agrees.step {i : Nat} {s : Session} {server : State} (h : s.Agrees i server) :
    s.step.Agrees i server ∨
      ∃ a server', TcpIpBIOServer.step server (.thread i a) = some server' ∧
        s.step.Agrees i server' := by
  cases hnext : s.next with
  | none =>
    simp only [Session.step, hnext]
    exact Or.inl h
  | some a =>
    cases hserve : serve s.runnable s.thread a with
    | some r =>
      obtain ⟨runnable, th⟩ := r
      have hsame : th.runnable = s.thread.runnable := (serve_ran hserve).keeps.runnable
      refine Or.inr ⟨a, { server with
        runnables := Function.update server.runnables s.thread.runnable runnable
        threads := server.threads.set i th }, ?_, ?_⟩
      · simp only [TcpIpBIOServer.step, h.thread, Option.bind_some, h.runnable, hserve]
      · simp only [Session.step, hnext, hserve]
        refine ⟨h.pool, getElem?_set_of_some h.thread th, ?_⟩
        simp only [hsame, Function.update_self]
    | none =>
      cases hfree : free s.pool s.thread a with
      | some r =>
        obtain ⟨pool, th⟩ := r
        refine Or.inr ⟨a, { server with pool, threads := server.threads.set i th }, ?_, ?_⟩
        · simp only [TcpIpBIOServer.step, h.thread, Option.bind_some, h.runnable, hserve, h.pool,
            hfree, Option.map_some]
        · simp only [Session.step, hnext, hserve, hfree]
          refine ⟨rfl, getElem?_set_of_some h.thread th, ?_⟩
          rw [free_runnable hfree]
          exact h.runnable
      | none =>
        simp only [Session.step, hnext, hserve, hfree]
        exact Or.inl h

/-- **The run of a session is one of the server's**, on any server that has just started the
thread. -/
theorem Session.Agrees.after {m i : Nat} {s : Session} {server : State}
    (h : s.Agrees i server) (hr : (machine m).Reachable server) (n : Nat) :
    ∃ server', (machine m).Reachable server' ∧ (s.after n).Agrees i server' := by
  induction n with
  | zero => exact ⟨server, hr, h⟩
  | succ n ih =>
    obtain ⟨middle, hmiddle, hagrees⟩ := ih
    rcases hagrees.step with hstay | ⟨a, server', hstep, hnew⟩
    · exact ⟨middle, hmiddle, hstay⟩
    · exact ⟨server', hmiddle.step (a := .thread i a) hstep, hnew⟩

/-- Nothing is thrown in thread `i`, and it reads nothing but requests. -/
def Reliable (i : Nat) : Act → Prop
  | .thread j (.throw _) => j ≠ i
  | .thread j (.readLine (some line)) => j = i → ∃ data, Request line data
  | _ => True

/-- Thread `i` is in its loop, and what it has read is a request. -/
def State.Looping (i : Nat) (s : State) : Prop :=
  ∀ th, s.threads[i]? = some th → th.pc.inLoop = true ∧
    ∀ line ∈ th.pc.inHand, ∃ data, Request line data

/-- A line in hand was in hand before, or it has just been read. -/
theorem Ran.inHand {runnable runnable' : TcpIpBIOServerThread} {th th' : Thread} {a : ThreadAct}
    (h : Ran runnable th a runnable' th') {line : JString} (hline : line ∈ th'.pc.inHand) :
    line ∈ th.pc.inHand ∨ a = .readLine (some line) := by
  cases h with
  | read socket hpc hsocket => cases hline
  | sendOut socket hpc hsocket => cases hline
  | line readStr hpc =>
    rw [List.mem_singleton.mp hline]
    exact Or.inr rfl
  | eof hpc => exact Or.inl hline
  | parsed readStr socketData hpc hparse =>
    rw [hpc]
    exact Or.inl hline
  | dealt readStr hpc =>
    rw [hpc]
    exact Or.inl hline
  | replied readStr hpc => cases hline
  | logged readStr hpc => cases hline
  | left a pc hpc hnew =>
    rcases hnew with rfl | rfl
    · cases hline
    · cases hline

/-- The acceptor starts threads, and leaves those alone that run. -/
theorem Stepped.threads {s t : State} {a : Act} (h : Stepped s a t) (ha : ∀ j b, a ≠ .thread j b) :
    t.threads = s.threads ∨
      ∃ k, t.threads = s.threads ++ [Thread.start k (s.runnables k).socket] := by
  cases h with
  | started k hpc => exact Or.inr ⟨k, rfl⟩
  | ran i a th th' runnable hi hran => exact absurd rfl (ha i a)
  | got i th hi hpc hk => exact absurd rfl (ha i .get)
  | missed i th hi hpc hk => exact absurd rfl (ha i .get)
  | freed i th hi hpc => exact absurd rfl (ha i .put)
  | _ => exact Or.inl rfl

theorem State.Looping.dispatch {i : Nat} {s t : State} {a : Act} (h : s.Looping i)
    (hst : Stepped s a t) (ha : ∀ j b, a ≠ .thread j b) : t.Looping i := by
  intro th hth
  rcases hst.threads ha with hsame | ⟨k, hnew⟩
  · exact h th (hsame ▸ hth)
  · rw [hnew, List.getElem?_append] at hth
    split at hth
    · exact h th hth
    · rw [List.getElem?_singleton] at hth
      split at hth
      · cases hth
        exact ⟨rfl, nofun⟩
      · exact absurd hth (by simp)

/-- **A reliable step leaves the thread in its loop**, whoever makes it. -/
theorem State.Looping.step {i : Nat} {s t : State} {a : Act} (hi : Inv s) (h : s.Looping i)
    (hreliable : Reliable i a) (hst : TcpIpBIOServer.step s a = some t) : t.Looping i := by
  cases a with
  | thread j a =>
    simp only [TcpIpBIOServer.step, Option.bind_eq_some_iff] at hst
    obtain ⟨th, hj, hst⟩ := hst
    by_cases hji : j = i
    · subst hji
      obtain ⟨hloop, hrequest⟩ := h th hj
      have hgood : Good (s.runnables th.runnable) th := hi.good j th hj (Pc.ne_ended hloop)
      split at hst
      · rename_i runnable th' hserve
        cases hst
        have hthrow : ∀ e, a ≠ .throw e := by
          rintro e rfl
          exact absurd rfl hreliable
        intro th'' hth''
        rw [getElem?_set_of_some hj, Option.some.injEq] at hth''
        subst hth''
        refine ⟨serve_inLoop hgood hloop hthrow hrequest hserve, ?_⟩
        intro line hline
        rcases (serve_ran hserve).inHand hline with hold | rfl
        · exact hrequest line hold
        · exact hreliable rfl
      · rw [free_of_inLoop s.pool hloop a] at hst
        exact absurd hst (by simp)
    · -- another thread
      have hother : ∀ th', (s.threads.set j th')[i]? = s.threads[i]? :=
        fun th' => List.getElem?_set_ne hji
      intro th' hth'
      refine h th' ?_
      split at hst
      · cases hst
        rwa [hother] at hth'
      · obtain ⟨r, -, rfl⟩ := Option.map_eq_some_iff.mp hst
        rwa [hother] at hth'
  | _ => exact h.dispatch (step_cases hst) (fun _ _ h => by cases h)

/-- **A thread that nothing is thrown in keeps its runnable for ever**, among any other threads and
connections, and also after its client has gone. -/
theorem never_returned {n i : Nat} {s : State}
    (h : (machine n).Within (fun _ => Reliable i) s) {th : Thread}
    (hth : s.threads[i]? = some th) :
    th.pc.inLoop = true ∧ s.pool.threadMap.get th.runnable = some false := by
  have hlooping : s.Looping i := by
    refine h.induct (I := State.Looping i) ?_ ?_
    · intro th hth
      exact absurd hth (by simp [machine])
    · intro s a t hr hs hreliable hst
      exact hs.step (reachable_inv hr) hreliable hst
  have hloop := (hlooping th hth).1
  exact ⟨hloop, ((reachable_inv h.reachable).exclusive.down_iff th.runnable).mpr
    ⟨some i, State.holds_thread hth (Pc.ne_ended hloop)⟩⟩

end TcpIpBIOServer
end JavaStudy
