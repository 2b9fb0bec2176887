import Eraft.AsyncBuffer
import Eraft.BaseRun

/-! One thread calls `Write` of an `AsyncBuffer` while another one calls `ProcessBuffer` and `Skip`. A call
is cut into steps where the other thread can come in between: `Write` at its two tests, at the lock, at the
assertion and between the blocks that it pushes to the ring, `ProcessBuffer` between its test of the ring, its
test of `backBytes_`, `try_lock` and the exchange. A test is one step although it reads several values: when it
comes to the last one, the answers about the earlier ones still hold.

The reader looks for bytes that were put aside only after it has found the ring empty. The writer can fill the
ring in between and then put more aside, which the reader takes over first. -/

open Runs

namespace Eraft

/-- Where the writer is in `Write`. -/
inductive WriterPhase where
  | idle
  /-- The test has failed; it waits for the lock. -/
  | waiting (data : BufferSequence)
  /-- It has the lock, and is to test again. -/
  | holding (data : BufferSequence)
  /-- It has the lock, and puts the bytes aside. -/
  | storing (data : BufferSequence)
  /-- It is at the assertion in front of the loop. -/
  | asserting (data : BufferSequence)
  /-- It is in the loop, with the blocks that are left. -/
  | pushing (blocks : List Bytes)

/-- Where the reader is in `ProcessBuffer`. -/
inductive ReaderPhase where
  | idle
  /-- It has found `nLen` bytes in the ring. -/
  | reading (nLen : Nat)
  /-- It has found `tmpBuf_` and the ring empty. -/
  | testing
  /-- It has found bytes that were put aside. -/
  | locking
  /-- It has the lock. -/
  | swapping

/-- The steps of the writer, and then those of the reader. A `try_lock` comes with its result. -/
inductive AsyncStep where
  | write (data : BufferSequence)
  | lock
  | retest
  | store
  | check
  | push
  | process
  | getDatum
  | testBack
  | tryLock (locked : Bool)
  | swap
  | skip (size : Nat)

/-- A buffer with its two threads, what was written to it, what was skipped, and what the reader was shown
last. -/
structure Session where
  buf : AsyncBuffer
  writer : WriterPhase := .idle
  reader : ReaderPhase := .idle
  written : Bytes := []
  skipped : Bytes := []
  shown : Shown := {}

namespace Session

/-- One step; `none` if the thread is not there, or the lock is taken. The reader skips no more than it was
shown, once. -/
def exec (w : Session) : AsyncStep → Option (Except Fault Session)
  | .write data => match w.writer with
      | .idle => some (.ok { w with
          writer := if w.buf.LacksSpace data.buffers.flatten.length then .waiting data else .asserting data })
      | _ => none
  | .lock => match w.writer, w.reader with
      | .waiting _, .swapping => none
      | .waiting data, _ => some (.ok { w with writer := .holding data })
      | _, _ => none
  | .retest => match w.writer with
      | .holding data => some (.ok { w with
          writer := if w.buf.LacksSpace data.buffers.flatten.length then .storing data else .asserting data })
      | _ => none
  | .store => match w.writer with
      | .storing data => some ((w.buf.writeBack data).map fun a =>
          { w with buf := a, writer := .idle, written := w.written ++ data.buffers.flatten })
      | _ => none
  | .check => match w.writer with
      | .asserting data => some ((require (w.buf.backBytes = 0 ∧
          data.buffers.flatten.length ≤ w.buf.buffer.writeableSize)).map fun _ =>
            { w with writer := .pushing data.buffers })
      | _ => none
  | .push => match w.writer with
      | .pushing [] => some (.ok { w with writer := .idle })
      | .pushing (block :: blocks) => some ((AsyncBuffer.pushRing w.buf.buffer [block]).map fun b =>
          { w with buf := { w.buf with buffer := b }, writer := .pushing blocks, written := w.written ++ block })
      | _ => none
  | .process => match w.reader with
      | .idle => some (.ok (
          if w.buf.tmpBuf.isEmpty = false then { w with shown := w.buf.tmpShown }
          else if w.buf.buffer.isEmpty = false then
            { w with shown := {}, reader := .reading w.buf.buffer.readableSize }
          else { w with shown := {}, reader := .testing }))
      | _ => none
  | .getDatum => match w.reader with
      | .reading nLen => some ((w.buf.ringShown nLen).map fun shown =>
          { w with shown := shown, reader := .idle })
      | _ => none
  | .testBack => match w.reader with
      | .testing => some (.ok { w with reader := if 0 < w.buf.backBytes then .locking else .idle })
      | _ => none
  | .tryLock locked => match w.reader, w.writer, locked with
      | .locking, _, false => some (.ok { w with reader := .idle })
      | .locking, .holding _, true | .locking, .storing _, true => none
      | .locking, _, true => some (.ok { w with reader := .swapping })
      | _, _, _ => none
  | .swap => match w.reader with
      | .swapping => some (.ok { w with
          buf := w.buf.exchange, shown := w.buf.exchange.tmpShown, reader := .idle })
      | _ => none
  | .skip size => match w.reader with
      | .idle => if size ≤ (w.buf.bytes w.shown).length then
            some ((w.buf.skip size).map fun a => { w with
              buf := a, skipped := w.skipped ++ (w.buf.bytes w.shown).take size, shown := {} })
          else none
      | _ => none

/-- The transitions of a session whose steps all satisfy `ok`. -/
def Next (ok : Session → AsyncStep → Prop) (w : Session) (c : AsyncStep) (w' : Session) : Prop :=
  ok w c ∧ w.exec c = some (.ok w')

/-- A new buffer of a size that its ring is made for. -/
def Starts (w : Session) : Prop :=
  ∃ size a, 0 < size ∧ size ≤ 2 ^ 31 ∧ AsyncBuffer.new size = some a ∧ w = { buf := a }

/-- When the reader takes over what was put aside, the ring is still empty, or at least holds bytes that make
no difference to the order. -/
def InOrder (w : Session) : AsyncStep → Prop
  | .swap => w.buf.buffer.content ++ w.buf.backBuf.content = w.buf.backBuf.content ++ w.buf.buffer.content
  | _ => True

instance (w : Session) : (c : AsyncStep) → Decidable (InOrder w c)
  | .swap => inferInstanceAs (Decidable (_ = _))
  | .write _ | .lock | .retest | .store | .check | .push | .process | .getDatum | .testBack | .tryLock _
  | .skip _ => isTrue trivial

end Session

/-- What the writer can rely on: nothing is put aside, and there is room in the ring. -/
def WriterPhase.Sound (a : AsyncBuffer) : WriterPhase → Prop
  | .idle | .waiting _ | .holding _ | .storing _ => True
  | .asserting data => ¬a.LacksSpace data.buffers.flatten.length
  | .pushing blocks => ¬a.LacksSpace blocks.flatten.length

/-- What the reader can rely on: `tmpBuf_` stays empty, and bytes in the ring or put aside are there to
stay. -/
def ReaderPhase.Sound (a : AsyncBuffer) : ReaderPhase → Prop
  | .idle => True
  | .reading nLen => a.tmpBuf.isEmpty = true ∧ nLen ≤ a.buffer.readableSize
  | .testing => a.tmpBuf.isEmpty = true
  | .locking | .swapping => a.tmpBuf.isEmpty = true ∧ 0 < a.backBytes

/-- The reader leaves the writer its room. -/
theorem WriterPhase.Sound.mono {a a' : AsyncBuffer} {p : WriterPhase} (h : p.Sound a)
    (hback : a'.backBytes ≤ a.backBytes) (hroom : a.buffer.writeableSize ≤ a'.buffer.writeableSize) :
    p.Sound a' := by
  have hlacks : ∀ {len}, ¬a.LacksSpace len → ¬a'.LacksSpace len := by
    intro len hnot
    unfold AsyncBuffer.LacksSpace at hnot ⊢
    omega
  cases p with
  | idle | waiting _ | holding _ | storing _ => trivial
  | asserting data => exact hlacks h
  | pushing blocks => exact hlacks h

/-- The writer leaves the reader its bytes. -/
theorem ReaderPhase.Sound.mono {a a' : AsyncBuffer} {p : ReaderPhase} (h : p.Sound a)
    (htmp : a'.tmpBuf = a.tmpBuf) (hring : a.buffer.readableSize ≤ a'.buffer.readableSize)
    (hback : a.backBytes ≤ a'.backBytes) : p.Sound a' := by
  cases p with
  | idle => trivial
  | reading nLen => exact ⟨htmp ▸ h.1, h.2.trans hring⟩
  | testing => exact (htmp ▸ h : a'.tmpBuf.isEmpty = true)
  | locking | swapping => exact ⟨htmp ▸ h.1, h.2.trans_le hback⟩

namespace Session

structure Inv (w : Session) : Prop where
  valid : w.buf.Valid
  shown : w.buf.Shows w.shown
  order : w.skipped ++ w.buf.unread = w.written
  writer : w.writer.Sound w.buf
  reader : w.reader.Sound w.buf

variable {w w' : Session} {c : AsyncStep} {r : Except Fault Session} {moves : List (Move Session AsyncStep)}

/-- A step of the writer that adds `data` at the end. -/
theorem Inv.append (h : Inv w) {a : AsyncBuffer} {p : WriterPhase} {data : Bytes} (hvalid : a.Valid)
    (hunread : a.unread = w.buf.unread ++ data) (hshows : a.Shows w.shown) (hp : p.Sound a)
    (htmp : a.tmpBuf = w.buf.tmpBuf) (hring : w.buf.buffer.readableSize ≤ a.buffer.readableSize)
    (hback : w.buf.backBytes ≤ a.backBytes) :
    Inv { w with buf := a, writer := p, written := w.written ++ data } := by
  refine ⟨hvalid, hshows, ?_, hp, h.reader.mono htmp hring hback⟩
  show w.skipped ++ a.unread = w.written ++ data
  rw [hunread, ← List.append_assoc, h.order]

/-- A step that only moves the writer on. -/
theorem Inv.moveWriter (h : Inv w) {p : WriterPhase} (hp : p.Sound w.buf) : Inv { w with writer := p } :=
  ⟨h.valid, h.shown, h.order, hp, h.reader⟩

/-- A step that only moves the reader on. -/
theorem Inv.moveReader (h : Inv w) {p : ReaderPhase} {shown : Shown} (hshows : w.buf.Shows shown)
    (hp : p.Sound w.buf) : Inv { w with reader := p, shown := shown } :=
  ⟨h.valid, hshows, h.order, h.writer, hp⟩

/-- The two tests of `Write` lead to the ring only if there is room. -/
theorem Inv.moveTested (h : Inv w) {data : BufferSequence} {p : WriterPhase} (hp : p.Sound w.buf) :
    Inv { w with writer := if w.buf.LacksSpace data.buffers.flatten.length then p else .asserting data } := by
  refine h.moveWriter ?_
  split_ifs with hlacks
  · exact hp
  · exact hlacks

theorem Inv.store (h : Inv w) {data : BufferSequence} (hr : w.exec .store = some r)
    (hw : w.writer = .storing data) : (∃ w', r = .ok w' ∧ Inv w') ∨
      (r = .error .lengthError ∧ 2 ^ 62 < w.buf.unread.length + data.buffers.flatten.length) := by
  simp only [exec, hw] at hr
  rcases h.valid.writeBack data with ⟨a, ha, hvalid, hunread, htmp, hring, hback, hshows⟩ | ⟨herr, hlong⟩
  · rw [ha] at hr
    cases hr
    exact .inl ⟨_, rfl, h.append hvalid hunread (hshows _ h.shown) trivial htmp (hring ▸ le_rfl) hback⟩
  · rw [herr] at hr
    cases hr
    exact .inr ⟨rfl, hlong⟩

/-- The assertion of `Write` holds: since the test only the reader could change what it looks at. -/
theorem Inv.check (h : Inv w) {data : BufferSequence} (hr : w.exec .check = some r)
    (hw : w.writer = .asserting data) : ∃ w', r = .ok w' ∧ Inv w' := by
  have hsound : ¬w.buf.LacksSpace data.buffers.flatten.length :=
    (hw ▸ h.writer : (WriterPhase.asserting data).Sound w.buf)
  simp only [exec, hw] at hr
  rw [require_of (by unfold AsyncBuffer.LacksSpace at hsound; omega)] at hr
  cases hr
  exact ⟨_, rfl, h.moveWriter hsound⟩

theorem Inv.push (h : Inv w) {blocks : List Bytes} (hr : w.exec .push = some r)
    (hw : w.writer = .pushing blocks) : ∃ w', r = .ok w' ∧ Inv w' := by
  cases blocks with
  | nil =>
      simp only [exec, hw] at hr
      cases hr
      exact ⟨_, rfl, h.moveWriter trivial⟩
  | cons block blocks =>
      have hsound : ¬w.buf.LacksSpace (block :: blocks).flatten.length :=
        (hw ▸ h.writer : (WriterPhase.pushing (block :: blocks)).Sound w.buf)
      rw [AsyncBuffer.LacksSpace, List.flatten_cons, List.length_append] at hsound
      have hroom : [block].flatten.length ≤ w.buf.buffer.writeableSize := by
        rw [List.flatten_singleton]
        omega
      obtain ⟨b, hpush, hvalid, hunread, hleft, hmore, hshows⟩ := h.valid.pushRing (by omega) hroom
      rw [List.flatten_singleton] at hunread hleft
      simp only [exec, hw, hpush] at hr
      cases hr
      refine ⟨_, rfl, h.append hvalid hunread (hshows _ h.shown) ?_ rfl hmore le_rfl⟩
      show ¬(0 < w.buf.backBytes ∨ b.writeableSize < blocks.flatten.length)
      omega

theorem Inv.process (h : Inv w) (hr : w.exec .process = some r) (hw : w.reader = .idle) :
    ∃ w', r = .ok w' ∧ Inv w' := by
  simp only [exec, hw] at hr
  cases hr
  refine ⟨_, rfl, ?_⟩
  split_ifs with htmp hring
  · exact ⟨h.valid, .tmp rfl htmp rfl, h.order, h.writer, trivial⟩
  · exact h.moveReader (.nothing rfl) ⟨Bool.eq_true_of_not_eq_false htmp, le_rfl⟩
  · exact h.moveReader (.nothing rfl) (Bool.eq_true_of_not_eq_false htmp)

/-- The assertion of `ProcessBuffer` holds, although the ring may have grown since its size was read. -/
theorem Inv.getDatum (h : Inv w) {nLen : Nat} (hr : w.exec .getDatum = some r)
    (hw : w.reader = .reading nLen) : ∃ w', r = .ok w' ∧ Inv w' := by
  have hsound : (ReaderPhase.reading nLen).Sound w.buf := hw ▸ h.reader
  obtain ⟨shown, hshown, hshows, _⟩ := h.valid.ringShown hsound.1 hsound.2
  simp only [exec, hw, hshown] at hr
  cases hr
  exact ⟨_, rfl, h.moveReader hshows trivial⟩

/-- Until the exchange `tmpBuf_` is empty and something is put aside. -/
theorem Inv.swapping (h : Inv w) (hw : w.reader = .swapping) :
    w.buf.tmpBuf.content = [] ∧ 0 < w.buf.backBytes := by
  have hsound : ReaderPhase.swapping.Sound w.buf := hw ▸ h.reader
  exact ⟨h.valid.tmpBuf.isEmpty_iff.mp hsound.1, hsound.2⟩

/-- The exchange keeps the order exactly if the bytes in the ring make no difference. -/
theorem Inv.swap_iff (h : Inv w) (hw : w.reader = .swapping) :
    w.skipped ++ w.buf.exchange.unread = w.written ↔ InOrder w .swap := by
  obtain ⟨_, hunread, hexchanged⟩ := h.valid.exchange (h.swapping hw).1
  rw [← h.order, List.append_cancel_left_eq, hunread, hexchanged]
  exact eq_comm

theorem Inv.swap (h : Inv w) (hok : InOrder w .swap) (hr : w.exec .swap = some r)
    (hw : w.reader = .swapping) : ∃ w', r = .ok w' ∧ Inv w' := by
  obtain ⟨htmp, hback⟩ := h.swapping hw
  have hpos : 0 < w.buf.backBuf.readableSize := h.valid.backBytes ▸ hback
  simp only [exec, hw] at hr
  cases hr
  exact ⟨_, rfl, (h.valid.exchange htmp).1, .tmp rfl (beq_eq_false_iff_ne.mpr hpos.ne') rfl,
    (h.swap_iff hw).mpr hok, h.writer.mono (Nat.zero_le _) le_rfl, trivial⟩

theorem Inv.skip (h : Inv w) {size : Nat} (hr : w.exec (.skip size) = some r) (hw : w.reader = .idle) :
    ∃ w', r = .ok w' ∧ Inv w' := by
  simp only [exec, hw] at hr
  split_ifs at hr with hsize
  obtain ⟨a, ha, hvalid, hunread, hback, hroom⟩ := h.valid.skip h.shown hsize
  rw [ha] at hr
  cases hr
  refine ⟨_, rfl, hvalid, .nothing rfl, ?_, h.writer.mono hback.le hroom, trivial⟩
  show w.skipped ++ (w.buf.bytes w.shown).take size ++ a.unread = w.written
  rw [List.append_assoc, ← hunread, h.order]

/-- **One step of either thread.** It keeps the invariant, or the vector cannot hold what is put aside. -/
theorem Inv.step (h : Inv w) (hok : InOrder w c) (hr : w.exec c = some r) :
    (∃ w', r = .ok w' ∧ Inv w') ∨ (r = .error .lengthError ∧ ∃ data, w.writer = .storing data ∧
      2 ^ 62 < w.buf.unread.length + data.buffers.flatten.length) := by
  cases c with
  | write data =>
      simp only [exec] at hr
      split at hr <;> cases hr
      exact .inl ⟨_, rfl, h.moveTested trivial⟩
  | lock =>
      simp only [exec] at hr
      split at hr <;> cases hr
      exact .inl ⟨_, rfl, h.moveWriter trivial⟩
  | retest =>
      simp only [exec] at hr
      split at hr <;> cases hr
      exact .inl ⟨_, rfl, h.moveTested trivial⟩
  | store =>
      cases hw : w.writer with
      | storing data =>
          rcases h.store hr hw with hgood | ⟨herr, hlong⟩
          · exact .inl hgood
          · exact .inr ⟨herr, data, rfl, hlong⟩
      | idle | waiting _ | holding _ | asserting _ | pushing _ => simp only [exec, hw, reduceCtorEq] at hr
  | check =>
      cases hw : w.writer with
      | asserting data => exact .inl (h.check hr hw)
      | idle | waiting _ | holding _ | storing _ | pushing _ => simp only [exec, hw, reduceCtorEq] at hr
  | push =>
      cases hw : w.writer with
      | pushing blocks => exact .inl (h.push hr hw)
      | idle | waiting _ | holding _ | storing _ | asserting _ => simp only [exec, hw, reduceCtorEq] at hr
  | process =>
      cases hw : w.reader with
      | idle => exact .inl (h.process hr hw)
      | reading _ | testing | locking | swapping => simp only [exec, hw, reduceCtorEq] at hr
  | getDatum =>
      cases hw : w.reader with
      | reading nLen => exact .inl (h.getDatum hr hw)
      | idle | testing | locking | swapping => simp only [exec, hw, reduceCtorEq] at hr
  | testBack =>
      have hreader := h.reader
      cases hw : w.reader <;> simp only [exec, hw, reduceCtorEq] at hr
      rw [hw] at hreader
      cases hr
      refine .inl ⟨_, rfl, h.moveReader h.shown ?_⟩
      split_ifs with hback
      · exact ⟨hreader, hback⟩
      · trivial
  | tryLock locked =>
      have hreader := h.reader
      simp only [exec] at hr
      split at hr <;> cases hr
      · exact .inl ⟨_, rfl, h.moveReader h.shown trivial⟩
      · rw [‹w.reader = .locking›] at hreader
        exact .inl ⟨_, rfl, h.moveReader h.shown hreader⟩
  | swap =>
      cases hw : w.reader with
      | swapping => exact .inl (h.swap hok hr hw)
      | idle | reading _ | testing | locking => simp only [exec, hw, reduceCtorEq] at hr
  | skip size =>
      cases hw : w.reader with
      | idle => exact .inl (h.skip hr hw)
      | reading _ | testing | locking | swapping => simp only [exec, hw, reduceCtorEq] at hr

theorem Starts.inv (h : Starts w) : Inv w := by
  obtain ⟨size, a, hpos, hsize, hnew, rfl⟩ := h
  obtain ⟨hvalid, hunread⟩ := AsyncBuffer.new_valid hpos hsize hnew
  exact ⟨hvalid, .nothing rfl, hunread, trivial, trivial⟩

/-- **Nothing is lost, duplicated or reordered** as long as the reader takes over what was put aside while
the ring is still empty, or holds bytes that make no difference. At every point what was skipped, what the
reader has taken over, what is in the ring and what was put aside make up what was written, and the reader is
shown the beginning of what it has not skipped. No assertion fails and nothing outside of a buffer is touched: a
step can only fail because more bytes are put aside than a vector may have. The condition is exact: where it does
not hold, the exchange breaks the order. -/
theorem async_buffer_keeps_bytes (hrun : Run Starts (Next InOrder) moves w) :
    w.skipped ++ (w.buf.tmpBuf.content ++ (w.buf.buffer.content ++ w.buf.backBuf.content)) = w.written ∧
    w.buf.bytes w.shown <+: w.buf.tmpBuf.content ++ (w.buf.buffer.content ++ w.buf.backBuf.content) ∧
    w.buf.backBytes = w.buf.backBuf.readableSize ∧
    (∀ c f, w.exec c = some (.error f) → f = .lengthError ∧ ∃ data, w.writer = .storing data ∧
      2 ^ 62 < w.buf.unread.length + data.buffers.flatten.length) ∧
    ∀ w', w.exec .swap = some (.ok w') → (w'.skipped ++ w'.buf.unread = w'.written ↔ InOrder w .swap) := by
  have h : Inv w := by
    refine Run.induct (I := fun _ w => Inv w) (fun _ h => h.inv) (fun _ w c w' _ h hnext => ?_) hrun
    rcases h.step hnext.1 hnext.2 with ⟨_, heq, hinv⟩ | ⟨herr, _⟩
    · cases heq
      exact hinv
    · cases herr
  refine ⟨h.order, h.shown.isPrefix h.valid, h.valid.backBytes, fun c f herr => ?_, fun w' hw' => ?_⟩
  swap
  · cases hw : w.reader <;> simp only [exec, hw, reduceCtorEq] at hw'
    cases hw'
    exact h.swap_iff hw
  have hok : InOrder w c := by
    cases c with
    | swap => cases hw : w.reader <;> simp only [exec, hw, reduceCtorEq, Option.some.injEq] at herr
    | write _ | lock | retest | store | check | push | process | getDatum | testBack | tryLock _
    | skip _ => trivial
  rcases h.step hok herr with ⟨_, heq, _⟩ | ⟨heq, hlong⟩
  · cases heq
  · cases heq
    exact ⟨rfl, hlong⟩

/-- One step of a run that is played: it has to satisfy `ok` and to succeed. -/
def turn (ok : Session → AsyncStep → Prop) [∀ w c, Decidable (ok w c)] (w : Session) (c : AsyncStep) :
    Option (AsyncStep × Session) :=
  if ok w c then (w.exec c).bind fun r => r.toOption.map (c, ·) else none

theorem turn_spec {ok : Session → AsyncStep → Prop} [∀ w c, Decidable (ok w c)] (w : Session) (c e : AsyncStep)
    (w' : Session) (h : turn ok w c = some (e, w')) : Next ok w e w' := by
  unfold turn at h
  split_ifs at h with hok
  obtain ⟨r, hr, hmap⟩ := Option.bind_eq_some_iff.mp h
  cases r with
  | error f => cases hmap
  | ok w₁ =>
      cases hmap
      exact ⟨hok, hr⟩

theorem starts_four (w : Session) (h : (AsyncBuffer.new 4).map (fun a => ({ buf := a } : Session)) = some w) :
    Starts w := by
  obtain ⟨a, ha, rfl⟩ := Option.map_eq_some_iff.mp h
  exact ⟨4, a, by decide, by decide, ha, rfl⟩

/-- A ring of four cells. The reader shows the first block; the second one is put aside; the ring is found
empty, an attempt to lock fails and the next one succeeds; the third block goes to the ring while the reader has
the lock, but it was not in the ring yet when the buffers were exchanged. -/
theorem async_buffer_keeps_bytes_aside : ∃ moves w, Run Starts (Next InOrder) moves w ∧
    w.skipped = [1, 2, 3] ∧ w.buf.tmpBuf.content = [4, 5] ∧ w.buf.buffer.content = [6] ∧
    w.skipped ++ (w.buf.tmpBuf.content ++ (w.buf.buffer.content ++ w.buf.backBuf.content)) = w.written := by
  have hplay : (((AsyncBuffer.new 4).map fun a => ({ buf := a } : Session)).bind (play (turn InOrder)
      [.write (.single [1, 2] (by decide)), .check, .push, .process, .push, .getDatum,
       .write (.single [3, 4, 5] (by decide)), .lock, .retest, .skip 2, .store,
       .process, .testBack, .tryLock false, .process, .testBack, .tryLock true, .swap,
       .write (.single [6] (by decide)), .check, .push, .skip 1] [])).any (fun r =>
        r.2.skipped == [1, 2, 3] && (r.2.buf.tmpBuf.content == [4, 5] && r.2.buf.buffer.content == [6])) =
      true := by
    decide +kernel
  obtain ⟨moves, w, hrun, hp⟩ := exists_run_of_play turn_spec _ starts_four _ hplay
  simp only [Bool.and_eq_true, beq_iff_eq] at hp
  obtain ⟨hskipped, htmp, hring⟩ := hp
  exact ⟨moves, w, hrun, hskipped, htmp, hring, (async_buffer_keeps_bytes hrun).1⟩

/-- The reader finds everything empty. Then one byte is written to the ring, and three more that are put aside.
The reader goes on, sees that something was put aside, and shows it before the byte in the ring. -/
theorem async_buffer_reorders : ∃ moves w, Run Starts (Next fun _ _ => True) moves w ∧
    w.written = [1, 2, 3, 4] ∧ w.skipped = [] ∧ w.buf.bytes w.shown = [2, 3, 4] ∧
    w.skipped ++ (w.buf.tmpBuf.content ++ (w.buf.buffer.content ++ w.buf.backBuf.content)) = [2, 3, 4, 1] := by
  have hplay : (((AsyncBuffer.new 4).map fun a => ({ buf := a } : Session)).bind (play (turn fun _ _ => True)
      [.process, .write (.single [1] (by decide)), .check, .push, .push,
       .write (.single [2, 3, 4] (by decide)), .lock, .retest, .store,
       .testBack, .tryLock true, .swap] [])).any (fun r =>
        r.2.written == [1, 2, 3, 4] && (r.2.skipped == [] && (r.2.buf.bytes r.2.shown == [2, 3, 4] &&
          r.2.skipped ++ (r.2.buf.tmpBuf.content ++ (r.2.buf.buffer.content ++ r.2.buf.backBuf.content)) ==
            [2, 3, 4, 1]))) =
      true := by
    decide +kernel
  obtain ⟨moves, w, hrun, hp⟩ := exists_run_of_play turn_spec _ starts_four _ hplay
  simp only [Bool.and_eq_true, beq_iff_eq] at hp
  exact ⟨moves, w, hrun, hp⟩

/-- Some steps lead from one state to the other. -/
def Reaches (w w' : Session) : Prop := ∃ moves, Run (· = w) (Next fun _ _ => True) moves w'

theorem Reaches.refl (w : Session) : w.Reaches w := ⟨[], .start rfl⟩

theorem Reaches.step {w₁ : Session} (h : w.Reaches w₁) (hexec : w₁.exec c = some (.ok w')) : w.Reaches w' := by
  obtain ⟨moves, hrun⟩ := h
  exact ⟨_, hrun.step ⟨trivial, hexec⟩⟩

/-- The loop of `Write` when the reader does not come in between. -/
theorem Reaches.push {w₁ : Session} {blocks : List Bytes} {b : CircularBuffer} (h : w.Reaches w₁)
    (hw : w₁.writer = .pushing blocks) (hpush : AsyncBuffer.pushRing w₁.buf.buffer blocks = .ok b) :
    w.Reaches { w₁ with
      buf := { w₁.buf with buffer := b }, writer := .idle, written := w₁.written ++ blocks.flatten } := by
  induction blocks generalizing w₁ with
  | nil =>
      cases hpush
      refine h.step (c := .push) ?_
      simp only [exec, hw, List.flatten_nil, List.append_nil]
  | cons block blocks ih =>
      rw [AsyncBuffer.pushRing, List.foldlM_cons] at hpush
      obtain ⟨b₁, hblock, hrest⟩ := exists_of_bind hpush
      have hone : AsyncBuffer.pushRing w₁.buf.buffer [block] = .ok b₁ := by
        rw [AsyncBuffer.pushRing, List.foldlM_cons, hblock]
        rfl
      have hexec : w₁.exec .push = some (.ok { w₁ with
          buf := { w₁.buf with buffer := b₁ }, writer := .pushing blocks, written := w₁.written ++ block }) := by
        simp only [exec, hw, hone]
        rfl
      have hdone := ih (h.step hexec) rfl hrest
      rwa [List.append_assoc] at hdone

/-- **An uninterrupted `Write`** is the function of the two buffers. -/
theorem reaches_write {data : BufferSequence} {a : AsyncBuffer} (hw : w.writer = .idle)
    (hr : w.reader = .idle) (h : w.buf.write data = .ok a) : w.Reaches { w with
      buf := a, writer := .idle, written := w.written ++ data.buffers.flatten } := by
  unfold AsyncBuffer.write at h
  split_ifs at h with hlacks
  · have hwrite : w.exec (.write data) = some (.ok { w with writer := .waiting data }) := by
      simp only [exec, hw, if_pos hlacks]
    have hlock : exec { w with writer := .waiting data } .lock =
        some (.ok { w with writer := .holding data }) := by
      simp only [exec, hr]
    have hretest : exec { w with writer := .holding data } .retest =
        some (.ok { w with writer := .storing data }) := by
      simp only [exec, if_pos hlacks]
    have hstore : exec { w with writer := .storing data } .store = some (.ok { w with
        buf := a, writer := .idle, written := w.written ++ data.buffers.flatten }) := by
      simp only [exec, h]
      rfl
    exact ((((Reaches.refl w).step hwrite).step hlock).step hretest).step hstore
  · have hwrite : w.exec (.write data) = some (.ok { w with writer := .asserting data }) := by
      simp only [exec, hw, if_neg hlacks]
    have hroom : w.buf.backBytes = 0 ∧ data.buffers.flatten.length ≤ w.buf.buffer.writeableSize := by
      unfold AsyncBuffer.LacksSpace at hlacks
      omega
    have hcheck : exec { w with writer := .asserting data } .check =
        some (.ok { w with writer := .pushing data.buffers }) := by
      simp only [exec, require_of hroom]
      rfl
    rw [AsyncBuffer.writeRing, require_of hroom, ok_bind] at h
    obtain ⟨b, hpush, hok⟩ := exists_of_bind h
    cases hok
    exact (((Reaches.refl w).step hwrite).step hcheck).push rfl hpush

/-- **An uninterrupted `ProcessBuffer`** likewise. -/
theorem reaches_processBuffer {locked : Bool} {shown : Shown} {a : AsyncBuffer} (hw : w.writer = .idle)
    (hr : w.reader = .idle) (h : w.buf.processBuffer locked = .ok (shown, a)) :
    w.Reaches { w with buf := a, shown := shown, reader := .idle } := by
  unfold AsyncBuffer.processBuffer at h
  split_ifs at h with htmp hring hback
  · cases h
    refine (Reaches.refl w).step (c := .process) ?_
    simp only [exec, hr, if_pos htmp]
  · obtain ⟨shown', hdatum, hok⟩ := exists_of_bind h
    cases hok
    have hprocess : w.exec .process = some (.ok { w with
        shown := {}, reader := .reading w.buf.buffer.readableSize }) := by
      simp only [exec, hr, if_neg htmp, if_pos hring]
    refine ((Reaches.refl w).step hprocess).step (c := .getDatum) ?_
    simp only [exec, hdatum]
    rfl
  all_goals
    cases h
    have hprocess : w.exec .process = some (.ok { w with shown := {}, reader := .testing }) := by
      simp only [exec, hr, if_neg htmp, if_neg hring]
  · have htest : exec { w with shown := {}, reader := .testing } .testBack =
        some (.ok { w with shown := {}, reader := .locking }) := by
      simp only [exec, if_pos hback.1]
    have hlock : exec { w with shown := {}, reader := .locking } (.tryLock true) =
        some (.ok { w with shown := {}, reader := .swapping }) := by
      simp only [exec, hw]
    exact ((((Reaches.refl w).step hprocess).step htest).step hlock).step (c := .swap) rfl
  · by_cases hpos : 0 < w.buf.backBytes
    · have htest : exec { w with shown := {}, reader := .testing } .testBack =
          some (.ok { w with shown := {}, reader := .locking }) := by
        simp only [exec, if_pos hpos]
      exact (((Reaches.refl w).step hprocess).step htest).step (c := .tryLock false) rfl
    · refine ((Reaches.refl w).step hprocess).step (c := .testBack) ?_
      simp only [exec, if_neg hpos]

end Session

end Eraft
