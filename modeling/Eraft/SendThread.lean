import Eraft.AsyncBuffer
import Eraft.BaseRun

/-! The sending side of the connections: `SendPacket`, `Send` and `_Send` of `StreamSocket`
(`network/src/stream_socket.cc`) and the loop of `SendThread` (`network/src/net_thread_pool.cc`). The
thread sends what it can from every socket in turn, and waits with `epoll` for those that took less
than they were given. What the kernel answers is an argument of each round. -/

open Runs

namespace Eraft

/-- How `writev` ends: it takes as much as there is room for, or fails, with `EAGAIN` or for good. `stale`
is whether `errno` still is `EAGAIN` from an earlier call. -/
inductive Writev where
  | wrote (room : Nat) (stale : Bool)
  | again
  | failed
  deriving DecidableEq

namespace Writev

/-- How many of `total` bytes are taken. -/
def taken (total : Nat) : Writev → Nat
  | wrote room _ => min room total
  | again => 0
  | failed => 0

/-- The result, as an `int`. -/
def ret (total : Nat) : Writev → Int
  | wrote room _ => toInt (min room total : Nat)
  | again => -1
  | failed => -1

/-- `EAGAIN == errno || EWOULDBLOCK == errno`, after the call. -/
def wouldBlock : Writev → Bool
  | wrote _ stale => stale
  | again => true
  | failed => false

/-- The number of bytes taken is an `int`. -/
def InRange : Writev → Prop
  | wrote room _ => room < 2 ^ 31
  | again => True
  | failed => True

end Writev

/-- Bytes for `SendPacket`, with a `size_t` for their number. -/
abbrev Packet := { data : Bytes // data.length < 2 ^ 64 }

/-- A `StreamSocket` as it is used for sending; `registered` is whether the poller of the thread watches it
for writing. Beside it stand the bytes given to `SendPacket` and those taken by `writev`, and whether a
`writev` failed for good. -/
structure SendSocket where
  sendBuf : AsyncBuffer
  epollOut : Bool := false
  invalid : Bool := false
  registered : Bool := false
  queued : Bytes := []
  accepted : Bytes := []
  failed : Bool := false

namespace SendSocket

variable (s : SendSocket)

/-- `SendPacket`. -/
def sendPacket (packet : Packet) : Except Fault SendSocket :=
  if packet.1 = [] then .ok s
  else do
    let sendBuf ← s.sendBuf.write (.single packet.1 packet.2)
    return { s with sendBuf := sendBuf, queued := s.queued ++ packet.1 }

/-- `_Send`: what it returns, and `epollOut_` after it. -/
def sendSequence (total : Nat) (answer : Writev) : Int × Bool :=
  if total = 0 then (0, s.epollOut)
  else
    let ret := answer.ret total
    if ret = -1 ∧ answer.wouldBlock = true then (0, true)
    else if 0 < ret ∧ (ret % 2 ^ 64).toNat < total then (ret, true)
    else if (ret % 2 ^ 64).toNat = total then (ret, false)
    else (ret, s.epollOut)

/-- `Send`. `locked` is for `ProcessBuffer`. -/
def send (locked : Bool) (answer : Writev) : Except Fault (Bool × SendSocket) :=
  if s.epollOut = true then .ok (true, s)
  else do
    let (shown, sendBuf) ← s.sendBuf.processBuffer locked
    let total := totalBytes shown.segments
    if total = 0 then return (true, { s with sendBuf := sendBuf })
    else
      let (nSent, epollOut) := s.sendSequence total answer
      let accepted := s.accepted ++ (sendBuf.bytes shown).take (answer.taken total)
      let sendBuf ← if 0 < nSent then sendBuf.skip nSent.toNat else .ok sendBuf
      -- `EnableWrite` if the socket has to wait
      return (decide (0 ≤ nSent), { s with
        sendBuf := sendBuf, epollOut := epollOut, registered := s.registered || epollOut
        accepted := accepted, failed := s.failed || decide (answer = .failed) })

/-- `OnWritable`, as it is called through `Socket`. The method of `StreamSocket` is called `OnWriteable` and
does not override it. -/
def onWritable (_ : SendSocket) : Bool := false

/-- `OnError`. -/
def onError : SendSocket := { s with invalid := true }

/-- The buffer holds what was queued and not taken, in its order; and the socket is only given up after a
failure, if `quiet`. -/
structure Ordered (quiet : Prop) : Prop where
  sendBuf : s.sendBuf.Valid
  order : s.accepted ++ s.sendBuf.unread = s.queued
  failed : quiet → s.invalid = true → s.failed = true

end SendSocket

/-- What the kernel and the locks answer in one round of the loop, for each socket. -/
structure Round where
  /-- `mutex_.try_lock()` of `_TryAddNewTasks`. -/
  locked : Bool
  /-- `AddSocket` of the poller. -/
  added : Nat → Bool
  /-- `try_lock` of `ProcessBuffer`. -/
  backLocked : Nat → Bool
  answer : Nat → Writev
  /-- What `epoll_wait` reports as writable, of the sockets it watches. -/
  ready : List Nat

/-- `SendThread`, with all sockets there are; tasks are positions in that list. -/
structure SendThread where
  sockets : List SendSocket := []
  newTasks : List Nat := []
  tasks : List Nat := []

namespace SendThread

/-- `AddSocket` with a new `StreamSocket`. -/
def addSocket (w : SendThread) : Except Fault SendThread :=
  match AsyncBuffer.new (128 * 1024) with
  | some sendBuf => .ok { w with
      sockets := w.sockets ++ [{ sendBuf := sendBuf }], newTasks := w.newTasks ++ [w.sockets.length] }
  | none => .error .lengthError

def sendPacket (w : SendThread) (id : Nat) (packet : Packet) : Except Fault SendThread :=
  match w.sockets[id]? with
  | some s => do
    let s ← s.sendPacket packet
    return { w with sockets := w.sockets.set id s }
  | none => .ok w

/-- `_AddSocket`: the socket is watched for writing from the beginning. -/
def addTask (round : Round) (w : SendThread) (id : Nat) : SendThread :=
  if round.added id = true then
    { w with
      sockets := w.sockets.modify id fun s => { s with registered := true }, tasks := w.tasks ++ [id] }
  else w

/-- `_TryAddNewTasks`. -/
def tryAddNewTasks (w : SendThread) (round : Round) : SendThread :=
  if 0 < w.newTasks.length ∧ round.locked = true then
    w.newTasks.foldl (addTask round) { w with newTasks := [] }
  else w

/-- The loop over `tasks_`: the tasks that are left, `nOut` and the sockets. -/
def sendLoop (round : Round) : List Nat → List SendSocket → Except Fault (List Nat × Nat × List SendSocket)
  | [], sockets => .ok ([], 0, sockets)
  | id :: rest, sockets =>
      match sockets[id]? with
      | none => sendLoop round rest sockets
      | some s => do
        let (sent, s) ← s.send (round.backLocked id) (round.answer id)
        let s := if sent = true then s else s.onError
        if s.invalid = true then
          -- `DisableWrite`, `RemoveSocket`
          sendLoop round rest (sockets.set id { s with registered := false })
        else do
          let (tasks, nOut, sockets) ← sendLoop round rest (sockets.set id s)
          return (id :: tasks, (if s.epollOut = true then 1 else 0) + nOut, sockets)

/-- What `Poll` gives. -/
def poll (round : Round) (maxEvent : Nat) (sockets : List SendSocket) : List Nat :=
  (round.ready.filter fun id => (sockets[id]?).any SendSocket.registered).take maxEvent

/-- The loop over `firedEvents_`. An error is never among them, since `Poll` does not set its bit. -/
def firedLoop (fired : List Nat) (sockets : List SendSocket) : List SendSocket :=
  fired.foldl (fun sockets id => sockets.modify id fun s =>
    if s.onWritable = true then s else s.onError) sockets

/-- One round of `Run`. -/
def run (w : SendThread) (round : Round) : Except Fault SendThread := do
  let w := w.tryAddNewTasks round
  let (tasks, nOut, sockets) ← sendLoop round w.tasks w.sockets
  if nOut = 0 then return { w with tasks := tasks, sockets := sockets }
  else return { w with tasks := tasks, sockets := firedLoop (poll round tasks.length sockets) sockets }

end SendThread

inductive SendCall where
  | addSocket
  | sendPacket (id : Nat) (packet : Packet)
  | run (round : Round)

namespace SendThread

def exec (w : SendThread) : SendCall → Except Fault SendThread
  | .addSocket => w.addSocket
  | .sendPacket id packet => w.sendPacket id packet
  | .run round => w.run round

/-- No `writev` takes more bytes than an `int` can count. -/
def Counted : SendCall → Prop
  | .addSocket => True
  | .sendPacket _ _ => True
  | .run round => ∀ id, (round.answer id).InRange

/-- No socket is reported as writable. -/
def Unreported : SendCall → Prop
  | .addSocket => True
  | .sendPacket _ _ => True
  | .run round => round.ready = []

end SendThread

namespace SendSocket

variable {s : SendSocket} {quiet : Prop}

theorem Ordered.new {sendBuf : AsyncBuffer} (h : AsyncBuffer.new (128 * 1024) = some sendBuf) :
    Ordered { sendBuf := sendBuf } quiet := by
  obtain ⟨hvalid, hunread⟩ := AsyncBuffer.new_valid (by decide) (by decide) h
  exact ⟨hvalid, hunread, fun _ => nofun⟩

theorem Ordered.mono {quiet' : Prop} (h : s.Ordered quiet) (himp : quiet' → quiet) : s.Ordered quiet' :=
  ⟨h.sendBuf, h.order, fun hquiet => h.failed (himp hquiet)⟩

theorem Ordered.sendPacket (h : s.Ordered quiet) (packet : Packet) :
    (∃ s', s.sendPacket packet = .ok s' ∧ s'.Ordered quiet) ∨
    (s.sendPacket packet = .error .lengthError ∧ 2 ^ 62 < s.sendBuf.unread.length + packet.1.length) := by
  unfold SendSocket.sendPacket
  by_cases hnil : packet.1 = []
  · exact .inl ⟨s, if_pos hnil, h⟩
  rw [if_neg hnil]
  have hflat := BufferSequence.flatten_single packet.1 packet.2
  rcases h.sendBuf.write (.single packet.1 packet.2) with ⟨a, ha, hvalid, hunread, _⟩ | ⟨herr, hlong⟩
  · rw [ha]
    refine .inl ⟨_, rfl, hvalid, ?_, h.failed⟩
    show s.accepted ++ a.unread = s.queued ++ packet.1
    rw [hunread, hflat, ← List.append_assoc, h.order]
  · rw [herr]
    exact .inr ⟨rfl, hflat ▸ hlong⟩

theorem sendSequence_fst (s : SendSocket) {answer : Writev} (h : answer.InRange) {total : Nat}
    (htotal : total ≠ 0) :
    (s.sendSequence total answer).1 = if answer = .failed then -1 else (answer.taken total : Int) := by
  unfold sendSequence
  rw [if_neg htotal]
  dsimp only
  cases answer with
  | wrote room stale =>
      have hroom : room < 2 ^ 31 := h
      have hret : (Writev.wrote room stale).ret total = (min room total : Nat) :=
        toInt_of_lt ((Nat.min_le_left _ _).trans_lt hroom)
      have hne : ((min room total : Nat) : Int) ≠ -1 := nofun
      rw [hret, if_neg fun hand => hne hand.1, if_neg (show ¬Writev.wrote room stale = .failed from nofun)]
      split_ifs <;> rfl
  | again =>
      rw [if_pos ⟨rfl, rfl⟩, if_neg nofun]
      rfl
  | failed =>
      rw [if_neg fun hand => Bool.false_ne_true hand.2,
        if_neg fun hand => absurd hand.1 (show ¬(0 : Int) < -1 by decide), if_pos rfl]
      split_ifs <;> rfl

/-- **`Send` keeps the order**, and fails only if `writev` does. -/
theorem Ordered.send (h : s.Ordered quiet) (locked : Bool) {answer : Writev} (hanswer : answer.InRange) :
    ∃ sent s', s.send locked answer = .ok (sent, s') ∧
      Ordered (if sent = true then s' else s'.onError) quiet := by
  unfold SendSocket.send
  by_cases hout : s.epollOut = true
  · exact ⟨true, s, if_pos hout, h⟩
  obtain ⟨shown, a, ha, hvalid, hunread, hshows, htotal, _⟩ := h.sendBuf.processBuffer locked
  rw [if_neg hout, ha, ok_bind]
  dsimp only
  have horder : s.accepted ++ a.unread = s.queued := hunread ▸ h.order
  by_cases hzero : totalBytes shown.segments = 0
  · rw [if_pos hzero]
    exact ⟨true, _, rfl, hvalid, horder, h.failed⟩
  have hnone : s.accepted ++ (a.bytes shown).take 0 ++ a.unread = s.queued := by
    rw [List.take_zero, List.append_nil, horder]
  have hkept : quiet → s.invalid = true → (s.failed || decide (answer = .failed)) = true :=
    fun hquiet hinvalid => Bool.or_eq_true_iff.mpr (.inl (h.failed hquiet hinvalid))
  rw [if_neg hzero, s.sendSequence_fst hanswer hzero]
  by_cases hfailed : answer = .failed
  · subst hfailed
    exact ⟨false, _, rfl, hvalid, hnone, fun _ _ => Bool.or_true _⟩
  rw [if_neg hfailed]
  have hle : answer.taken (totalBytes shown.segments) ≤ (a.bytes shown).length := by
    rw [← htotal]
    cases answer with
    | wrote room stale => exact Nat.min_le_right _ _
    | again => exact Nat.zero_le _
    | failed => exact absurd rfl hfailed
  generalize answer.taken (totalBytes shown.segments) = n at hle
  have hsent : decide ((0 : Int) ≤ n) = true := decide_eq_true (Int.natCast_nonneg n)
  by_cases hpos : (0 : Int) < n
  · obtain ⟨a', ha', hvalid', hunread', _⟩ := hvalid.skip hshows hle
    rw [if_pos hpos, Int.toNat_natCast, ha', ok_bind, hsent]
    refine ⟨true, _, rfl, hvalid', ?_, hkept⟩
    show s.accepted ++ (a.bytes shown).take n ++ a'.unread = s.queued
    rw [List.append_assoc, ← hunread', horder]
  · obtain rfl : n = 0 := by omega
    rw [if_neg hpos, ok_bind, hsent]
    exact ⟨true, _, rfl, hvalid, hnone, hkept⟩

end SendSocket

namespace SendThread

open SendSocket

variable {w w' : SendThread} {round : Round} {quiet : Prop} {moves : List (Move SendThread SendCall)}

def Next (w : SendThread) (c : SendCall) (w' : SendThread) : Prop := w.exec c = .ok w'

/-- What stays true of a list of sockets if one of them is replaced. -/
theorem forall_mem_set {P : SendSocket → Prop} {sockets : List SendSocket} (h : ∀ s ∈ sockets, P s) (id : Nat)
    {s : SendSocket} (hs : P s) : ∀ s' ∈ sockets.set id s, P s' := fun s' hs' =>
  (List.mem_or_eq_of_mem_set hs').elim (h s') fun heq => heq ▸ hs

theorem forall_mem_modify {P : SendSocket → Prop} {sockets : List SendSocket} (h : ∀ s ∈ sockets, P s)
    (id : Nat) {f : SendSocket → SendSocket} (hf : ∀ s, P s → P (f s)) : ∀ s' ∈ sockets.modify id f, P s' := by
  intro s' hs'
  obtain ⟨j, hj⟩ := List.mem_iff_getElem?.mp hs'
  rw [List.getElem?_modify] at hj
  obtain ⟨s, hs, rfl⟩ := Option.map_eq_some_iff.mp hj
  have hold := h s (List.mem_of_getElem? hs)
  split_ifs
  · exact hf s hold
  · exact hold

theorem addTask_ordered (h : ∀ s ∈ w.sockets, s.Ordered quiet) (id : Nat) :
    ∀ s ∈ (addTask round w id).sockets, s.Ordered quiet := by
  unfold addTask
  split_ifs
  · exact forall_mem_modify h id fun s hs => ⟨hs.sendBuf, hs.order, hs.failed⟩
  · exact h

theorem tryAddNewTasks_ordered (h : ∀ s ∈ w.sockets, s.Ordered quiet) :
    ∀ s ∈ (w.tryAddNewTasks round).sockets, s.Ordered quiet := by
  unfold tryAddNewTasks
  split_ifs
  · exact List.foldlRecOn (motive := fun w => ∀ s ∈ w.sockets, s.Ordered quiet) w.newTasks (addTask round)
      (b := { w with newTasks := [] }) h fun _ hw id _ => addTask_ordered hw id
  · exact h

theorem sendLoop_ordered (hround : ∀ id, (round.answer id).InRange) (tasks : List Nat)
    {sockets : List SendSocket} (h : ∀ s ∈ sockets, s.Ordered quiet) : ∃ tasks' nOut sockets',
      sendLoop round tasks sockets = .ok (tasks', nOut, sockets') ∧ ∀ s ∈ sockets', s.Ordered quiet := by
  induction tasks generalizing sockets with
  | nil => exact ⟨[], 0, sockets, rfl, h⟩
  | cons id rest ih =>
      unfold sendLoop
      cases hid : sockets[id]? with
      | none => exact ih h
      | some s =>
          obtain ⟨sent, s', hsend, hs'⟩ :=
            (h s (List.mem_of_getElem? hid)).send (round.backLocked id) (hround id)
          dsimp only
          rw [hsend, ok_bind]
          dsimp only
          generalize (if sent = true then s' else s'.onError) = s₁ at hs'
          by_cases hinvalid : s₁.invalid = true
          · rw [if_pos hinvalid]
            exact ih (forall_mem_set h id ⟨hs'.sendBuf, hs'.order, hs'.failed⟩)
          · obtain ⟨tasks', nOut, sockets', hrest, hordered⟩ := ih (forall_mem_set h id hs')
            rw [if_neg hinvalid, hrest]
            exact ⟨_, _, _, rfl, hordered⟩

/-- What is reported is given up, so that it must not be `quiet`. -/
theorem firedLoop_ordered {sockets : List SendSocket} (h : ∀ s ∈ sockets, s.Ordered quiet) (hquiet : ¬quiet)
    (fired : List Nat) : ∀ s ∈ firedLoop fired sockets, s.Ordered quiet := by
  refine List.foldlRecOn (motive := fun sockets => ∀ s ∈ sockets, SendSocket.Ordered s quiet) fired _ h ?_
  intro sockets hsockets id _
  exact forall_mem_modify hsockets id fun s hs => ⟨hs.sendBuf, hs.order, fun hq => absurd hq hquiet⟩

theorem run_ordered (h : ∀ s ∈ w.sockets, s.Ordered quiet) (hround : Counted (.run round))
    (hquiet : quiet → Unreported (.run round)) :
    ∃ w', w.run round = .ok w' ∧ ∀ s ∈ w'.sockets, s.Ordered quiet := by
  obtain ⟨tasks, nOut, sockets, hloop, hordered⟩ :=
    sendLoop_ordered hround (w.tryAddNewTasks round).tasks (tryAddNewTasks_ordered h)
  unfold run
  dsimp only
  rw [hloop, ok_bind]
  dsimp only
  split_ifs
  · exact ⟨_, rfl, hordered⟩
  · by_cases hready : round.ready = []
    · have hpoll : poll round tasks.length sockets = [] := by
        rw [poll, hready]
        exact List.take_nil
      rw [hpoll]
      exact ⟨_, rfl, hordered⟩
    · exact ⟨_, rfl, firedLoop_ordered hordered (fun hq => hready (hquiet hq)) _⟩

theorem addSocket_ordered (h : ∀ s ∈ w.sockets, s.Ordered quiet) :
    ∃ w', w.addSocket = .ok w' ∧ ∀ s ∈ w'.sockets, s.Ordered quiet := by
  obtain ⟨a, ha⟩ := AsyncBuffer.exists_new (by decide : 0 < 128 * 1024) (by decide)
  unfold addSocket
  rw [ha]
  refine ⟨_, rfl, fun s hs => ?_⟩
  rcases List.mem_append.mp hs with hs | hs
  · exact h s hs
  · rw [List.mem_singleton.mp hs]
    exact .new ha

theorem sendPacket_ordered (h : ∀ s ∈ w.sockets, s.Ordered quiet) (id : Nat) (packet : Packet) :
    (∃ w', w.sendPacket id packet = .ok w' ∧ ∀ s ∈ w'.sockets, s.Ordered quiet) ∨
    (w.sendPacket id packet = .error .lengthError ∧
      ∃ s ∈ w.sockets, 2 ^ 62 < s.sendBuf.unread.length + packet.1.length) := by
  unfold sendPacket
  cases hid : w.sockets[id]? with
  | none => exact .inl ⟨w, rfl, h⟩
  | some s =>
      have hmem := List.mem_of_getElem? hid
      dsimp only
      rcases (h s hmem).sendPacket packet with ⟨s', hs', hordered⟩ | ⟨herr, hlong⟩
      · rw [hs']
        exact .inl ⟨_, rfl, forall_mem_set h id hordered⟩
      · rw [herr]
        exact .inr ⟨rfl, s, hmem, hlong⟩

theorem exec_ordered (h : ∀ s ∈ w.sockets, s.Ordered quiet) {c : SendCall} (hc : Counted c)
    (hquiet : quiet → Unreported c) (hnext : Next w c w') : ∀ s ∈ w'.sockets, s.Ordered quiet := by
  cases c with
  | addSocket =>
      obtain ⟨w₁, hw₁, hordered⟩ := addSocket_ordered h
      cases hw₁.symm.trans hnext
      exact hordered
  | sendPacket id packet =>
      rcases sendPacket_ordered h id packet with ⟨w₁, hw₁, hordered⟩ | ⟨herr, _⟩
      · cases hw₁.symm.trans hnext
        exact hordered
      · cases herr.symm.trans hnext
  | run round =>
      obtain ⟨w₁, hw₁, hordered⟩ := run_ordered h hc hquiet
      cases hw₁.symm.trans hnext
      exact hordered

theorem ordered_of_run (hrun : Run (· = {}) Next moves w) (hmoves : ∀ move ∈ moves, Counted move.label) :
    ∀ s ∈ w.sockets, s.Ordered (∀ move ∈ moves, Unreported move.label) := by
  induction hrun with
  | start h =>
      subst h
      exact nofun
  | step _ hnext ih =>
      obtain ⟨hmove, hmoves⟩ := List.forall_mem_cons.mp hmoves
      exact exec_ordered (fun s hs => (ih hmoves s hs).mono fun hall => (List.forall_mem_cons.mp hall).2) hmove
        (fun hall => (List.forall_mem_cons.mp hall).1) hnext

/-- **Short writes are harmless as long as nobody waits for the socket.** The kernel has always taken a
prefix of what was queued on each socket. If no socket was ever reported as writable, then only a socket
on which `writev` failed was given up. A round always comes to its end, and a packet can be queued unless
more bytes are put aside than a vector may have. -/
theorem short_writes_harmless (hrun : Run (· = {}) Next moves w)
    (hmoves : ∀ move ∈ moves, Counted move.label) :
    (∀ s ∈ w.sockets, s.accepted <+: s.queued) ∧
    ((∀ move ∈ moves, Unreported move.label) → ∀ s ∈ w.sockets, s.invalid = true → s.failed = true) ∧
    (∃ w', Next w .addSocket w') ∧
    (∀ id packet, (∃ w', Next w (.sendPacket id packet) w') ∨
      ∃ s ∈ w.sockets, 2 ^ 62 < s.sendBuf.unread.length + packet.1.length) ∧
    ∀ round, Counted (.run round) → ∃ w', Next w (.run round) w' := by
  have h := ordered_of_run hrun hmoves
  refine ⟨fun s hs => ⟨_, (h s hs).order⟩, fun hquiet s hs => (h s hs).failed hquiet, ?_, fun id packet => ?_,
    fun round hround => ?_⟩
  · obtain ⟨w', hw', _⟩ := addSocket_ordered h
    exact ⟨w', hw'⟩
  · rcases sendPacket_ordered h id packet with ⟨w', hw', _⟩ | ⟨_, hlong⟩
    · exact .inl ⟨w', hw'⟩
    · exact .inr hlong
  · obtain ⟨w', hw', _⟩ :=
      run_ordered (fun s hs => (h s hs).mono False.elim) hround False.elim
    exact ⟨w', hw'⟩

/-- One connection, on which a packet was queued. -/
theorem exists_queued (packet : Packet) (hne : packet.1 ≠ []) (hlen : packet.1.length ≤ 2 ^ 62) :
    ∃ moves a, Run (· = {}) Next moves { sockets := [{ sendBuf := a, queued := packet.1 }], newTasks := [0] } ∧
      (∀ move ∈ moves, Counted move.label ∧ Unreported move.label) ∧ a.Valid ∧ a.unread = packet.1 := by
  obtain ⟨a, ha⟩ := AsyncBuffer.exists_new (by decide : 0 < 128 * 1024) (by decide)
  obtain ⟨hvalid, hunread⟩ := AsyncBuffer.new_valid (by decide) (by decide) ha
  have hflat := BufferSequence.flatten_single packet.1 packet.2
  rcases hvalid.write (.single packet.1 packet.2) with ⟨a', ha', hvalid', hunread', _⟩ | ⟨_, hlong⟩
  · have hadd : Next {} .addSocket { sockets := [{ sendBuf := a }], newTasks := [0] } := by
      show addSocket {} = _
      unfold addSocket
      rw [ha]
      rfl
    have hsend : Next { sockets := [{ sendBuf := a }], newTasks := [0] } (.sendPacket 0 packet)
        { sockets := [{ sendBuf := a', queued := packet.1 }], newTasks := [0] } := by
      show ((SendSocket.sendPacket { sendBuf := a } packet) >>= _) = _
      rw [SendSocket.sendPacket, if_neg hne, ha']
      rfl
    refine ⟨_, a', .step (.step (.start rfl) hadd) hsend, ?_, hvalid', ?_⟩
    · exact List.forall_mem_cons.mpr ⟨⟨trivial, trivial⟩, List.forall_mem_singleton.mpr ⟨trivial, trivial⟩⟩
    · rw [hunread', hunread, hflat]
      rfl
  · rw [hunread, hflat] at hlong
    exact absurd hlong (by rw [List.length_nil]; omega)

/-- Of two bytes one is taken, and `epoll_wait` runs into its timeout. -/
def shortRound : Round where
  locked := true
  added _ := true
  backLocked _ := true
  answer _ := .wrote 1 false
  ready := []

/-- Such a round takes a byte of what a new connection has to send. -/
theorem run_shortRound {s : SendSocket} (h : s.Ordered quiet) (hout : s.epollOut = false)
    (hinvalid : s.invalid = false) (hne : s.sendBuf.unread ≠ []) : ∃ s' w',
      run { sockets := [s], newTasks := [0] } shortRound = .ok w' ∧ w'.sockets = [s'] ∧ s'.accepted ≠ [] := by
  obtain ⟨shown, a, ha, hvalid, _, hshows, htotal, hshown⟩ := h.sendBuf.processBuffer true
  have hbytes : a.bytes shown ≠ [] := hshown rfl hne
  have hpos := List.length_pos_of_ne_nil hbytes
  have hzero : totalBytes shown.segments ≠ 0 := by omega
  have htaken : (Writev.wrote 1 false).taken (totalBytes shown.segments) = 1 := Nat.min_eq_left (by omega)
  obtain ⟨a', ha', _⟩ := hvalid.skip hshows (Nat.succ_le_of_lt hpos)
  have hsend : ∃ s', SendSocket.send { s with registered := true } true (.wrote 1 false) = .ok (true, s') ∧
      s'.accepted ≠ [] ∧ s'.invalid = false := by
    have hanswer : (Writev.wrote 1 false).InRange := (by decide : 1 < 2 ^ 31)
    have hcount : (sendSequence { s with registered := true } (totalBytes shown.segments) (.wrote 1 false)).1 =
        1 := by
      rw [sendSequence_fst _ hanswer hzero, if_neg (by decide), htaken]
      rfl
    have htook : (a.bytes shown).take 1 ≠ [] := fun hnil =>
      hbytes ((List.take_eq_nil_iff.mp hnil).resolve_left (by decide))
    rw [SendSocket.send, if_neg (by rw [hout]; exact Bool.false_ne_true), ha, ok_bind]
    dsimp only
    rw [if_neg hzero, hcount, htaken, if_pos (by decide), Int.toNat_one, ha', ok_bind]
    exact ⟨_, rfl, List.append_ne_nil_of_right_ne_nil _ htook, hinvalid⟩
  obtain ⟨s', hs', haccepted, hinvalid'⟩ := hsend
  have hloop : sendLoop shortRound [0] [{ s with registered := true }] =
      .ok ([0], if s'.epollOut = true then 1 else 0, [s']) := by
    show (SendSocket.send { s with registered := true } true (.wrote 1 false) >>= _) = _
    rw [hs', ok_bind]
    dsimp only
    rw [if_pos rfl, if_neg (by rw [hinvalid']; exact Bool.false_ne_true)]
    rfl
  refine ⟨s', { sockets := [s'], tasks := [0] }, ?_, rfl, haccepted⟩
  show (sendLoop shortRound [0] [{ s with registered := true }] >>= _) = _
  rw [hloop, ok_bind]
  dsimp only
  split_ifs <;> rfl

theorem short_writes_harmless_of_one : ∃ moves w w', Run (· = {}) Next (⟨w, .run shortRound, w'⟩ :: moves) w' ∧
    (∃ s ∈ w.sockets, s.queued = [1, 2]) ∧
    ∀ s ∈ w'.sockets, s.accepted <+: s.queued ∧ (s.invalid = true → s.failed = true) := by
  have hround : Counted (.run shortRound) := fun _ => (by decide : 1 < 2 ^ 31)
  obtain ⟨moves, a, hrun, hmoves, _⟩ := exists_queued ⟨[1, 2], by decide⟩ (by decide) (by decide)
  have hcounted := fun move hmove => (hmoves move hmove).1
  obtain ⟨w', hw'⟩ := (short_writes_harmless hrun hcounted).2.2.2.2 shortRound hround
  obtain ⟨htaken, hfailed, _⟩ :=
    short_writes_harmless (hrun.step hw') (List.forall_mem_cons.mpr ⟨hround, hcounted⟩)
  have hquiet := hfailed (List.forall_mem_cons.mpr ⟨rfl, fun move hmove => (hmoves move hmove).2⟩)
  exact ⟨moves, _, w', hrun.step hw', ⟨_, List.mem_singleton_self _, rfl⟩,
    fun s hs => ⟨htaken s hs, hquiet s hs⟩⟩

/-- The socket has no room, and `epoll_wait` reports that it has room again. -/
def busyRound : Round where
  locked := true
  added _ := true
  backLocked _ := true
  answer _ := .again
  ready := [0]

/-- A socket that has no room has to wait. -/
theorem send_again {a : AsyncBuffer} (hvalid : a.Valid) (hne : a.unread ≠ []) (queued : Bytes) : ∃ a',
    SendSocket.send { sendBuf := a, registered := true, queued := queued } true .again =
      .ok (true, { sendBuf := a', epollOut := true, registered := true, queued := queued }) := by
  obtain ⟨shown, a', ha', _, _, _, htotal, hshown⟩ := hvalid.processBuffer true
  have hzero : totalBytes shown.segments ≠ 0 := by
    rw [htotal]
    exact (List.length_pos_of_ne_nil (hshown rfl hne)).ne'
  refine ⟨a', ?_⟩
  rw [SendSocket.send, if_neg Bool.false_ne_true, ha', ok_bind]
  dsimp only
  rw [if_neg hzero, sendSequence, if_neg hzero]
  rfl

/-- A connection to a slow peer is given up although no `writev` failed. -/
theorem not_short_writes_harmless : ¬∀ moves w, Run (· = {}) Next moves w →
    ∀ s ∈ w.sockets, s.accepted <+: s.queued ∧ (s.invalid = true → s.failed = true) := by
  intro h
  obtain ⟨moves, a, hrun, _, hvalid, hunread⟩ := exists_queued ⟨[1, 2], by decide⟩ (by decide) (by decide)
  obtain ⟨a', ha'⟩ := send_again hvalid (hunread ▸ List.cons_ne_nil _ _) [1, 2]
  have hnext : Next { sockets := [{ sendBuf := a, queued := [1, 2] }], newTasks := [0] } (.run busyRound)
      { sockets := [{ sendBuf := a', epollOut := true, invalid := true, registered := true, queued := [1, 2] }]
        tasks := [0] } := by
    show (sendLoop busyRound [0] [{ sendBuf := a, registered := true, queued := [1, 2] }] >>= _) = _
    have hloop : sendLoop busyRound [0] [{ sendBuf := a, registered := true, queued := [1, 2] }] = .ok ([0], 1,
        [{ sendBuf := a', epollOut := true, registered := true, queued := [1, 2] }]) := by
      show (SendSocket.send { sendBuf := a, registered := true, queued := [1, 2] } true .again >>= _) = _
      rw [ha']
      rfl
    rw [hloop]
    rfl
  exact Bool.false_ne_true ((h _ _ (hrun.step hnext) _ (List.mem_singleton_self _)).2 rfl)

end SendThread

end Eraft
