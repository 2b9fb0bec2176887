import Eraft.UnboundedBuffer

/-! Buffers of the class `UnboundedBuffer` as queues of bytes that have no bound. Any calls on any of them
give the results that they would give on lists, as long as no call of `Shrink` finds a vector with more
allocated than used: it asserts that this is not so, though a vector that grows is free to allocate more
than it needs. -/

namespace Eraft.UnboundedBuffer

/-- A call on one buffer. Sources and destinations are not null. -/
inductive BufferOp where
  | pushData (data : Bytes)
  | peekData (nSize : Nat)
  | peekDataAt (nSize offset : Nat)
  | adjustReadPtr (nBytes : Nat)
  | shrink (tight : Bool)
  | clear
  deriving DecidableEq

/-- What a call gives back: how many bytes were stored, or those that were copied to the destination. -/
inductive BufferResult where
  | pushed (nBytes : Nat)
  | peeked (data : Bytes)
  | done
  deriving DecidableEq

/-- A buffer, with what its vector has allocated. -/
structure Allocated where
  buf : UnboundedBuffer := {}
  capacity : Nat := 0
  deriving DecidableEq

/-! ### What the vector allocates

`grow size n` is what the library allocates when a vector of `size` elements has to hold `n` and does not
have the room. -/

section Allocation

variable (grow : Nat → Nat → Nat)

/-- `resize(n)`. -/
def resizeCapacity (size capacity n : Nat) : Nat := if n ≤ capacity then capacity else grow size n

/-- The loop of `_AssureSpace`, of which only the allocation is looked at. -/
def capacityLoop (nSize readPos writePos maxSize capacity : Nat) : Nat :=
  if u64Add (u64Sub maxSize writePos) readPos < nSize then
    if nextSize maxSize ≤ maxBufferSize then
      capacityLoop nSize readPos writePos (nextSize maxSize)
        (resizeCapacity grow maxSize capacity (nextSize maxSize))
    else capacity
  else capacity
termination_by maxBufferSize - maxSize
decreasing_by
  have := lt_nextSize maxSize
  omega

namespace Allocated

variable (a : Allocated)

/-- After `PushData` of `nSize` bytes. -/
def pushCapacity (nSize : Nat) : Nat :=
  if nSize = 0 ∨ a.buf.readableSize = maxBufferSize ∨ nSize ≤ a.buf.writeableSize then a.capacity
  else capacityLoop grow nSize a.buf.readPos a.buf.writePos a.buf.buffer.length a.capacity

/-- After `Shrink`, which makes a new vector unless it returns early. -/
def shrinkCapacity (tight : Bool) : Nat :=
  if a.buf.buffer = [] ∨ (tight = false ∧ a.buf.buffer.length / 2 < a.buf.readableSize) then a.capacity
  else resizeCapacity grow 0 0 a.buf.readableSize

def exec : BufferOp → Except Fault (BufferResult × Allocated)
  | .pushData data => do
      let (nBytes, buf) ← a.buf.pushData data
      return (.pushed nBytes, { buf := buf, capacity := a.pushCapacity grow data.length })
  | .peekData nSize => do
      let (data, buf) ← a.buf.peekData nSize
      return (.peeked data, { a with buf := buf })
  | .peekDataAt nSize offset => do
      let data ← a.buf.peekDataAt nSize offset
      return (.peeked data, a)
  | .adjustReadPtr nBytes => .ok (.done, { a with buf := a.buf.adjustReadPtr nBytes })
  | .shrink tight => do
      let buf ← a.buf.shrink a.capacity tight
      return (.done, { buf := buf, capacity := a.shrinkCapacity grow tight })
  | .clear => .ok (.done, { a with buf := a.buf.clear })

end Allocated

end Allocation

/-- The same calls on a queue. -/
def queueExec (q : Bytes) : BufferOp → BufferResult × Bytes
  | .pushData data => (.pushed data.length, q ++ data)
  | .peekData nSize => (.peeked (q.take nSize), q.drop nSize)
  | .peekDataAt nSize offset => (.peeked ((q.drop offset).take nSize), q)
  | .adjustReadPtr nBytes => (.done, q.drop nBytes)
  | .shrink _ => (.done, q)
  | .clear => (.done, [])

/-- Arguments are `size_t`, what is skipped is there, and the content stays below the half of
`MAX_BUFFER_SIZE`. -/
def Proper (q : Bytes) : BufferOp → Prop
  | .pushData data => q.length + data.length < maxBufferSize / 2
  | .peekData nSize => nSize < 2 ^ 64
  | .peekDataAt nSize offset => nSize < 2 ^ 64 ∧ offset < 2 ^ 64
  | .adjustReadPtr nBytes => nBytes ≤ q.length
  | .shrink _ => True
  | .clear => True

/-- Nothing is allocated that is not used when `Shrink` is called, and the arguments of `PeekDataAt` have a
sum, if it does not return at once. -/
def Fits (a : Allocated) : BufferOp → Prop
  | .peekDataAt nSize offset => nSize = 0 ∨ a.buf.readableSize ≤ offset ∨ nSize + offset < 2 ^ 64
  | .shrink _ => a.capacity = a.buf.buffer.length
  | _ => True

/-- The buffer is the queue `q`, and `_AssureSpace` makes room for more. -/
structure IsQueue (u : UnboundedBuffer) (q : Bytes) : Prop where
  read_le : u.readPos ≤ u.writePos
  write_le : u.writePos ≤ u.buffer.length
  content : u.content = q
  assureSpace : ∀ nSize, q.length + nSize < maxBufferSize / 2 →
    ∃ u', u.assureSpace nSize = .ok u' ∧ u'.content = q ∧ nSize ≤ u'.writeableSize

variable {grow : Nat → Nat → Nat} {u : UnboundedBuffer} {a : Allocated} {q : Bytes} {op : BufferOp}

theorem Valid.isQueue (h : u.Valid) : u.IsQueue u.content := by
  refine ⟨h.read_le, h.write_le, rfl, fun nSize hsmall => ?_⟩
  have hhalf : maxBufferSize / 2 < 2 ^ 62 := by decide
  rcases h.assureSpace nSize with ⟨u', hok, _, _, hcontent, hroom⟩ | ⟨_, hlong⟩
  · exact ⟨u', hok, hcontent, hroom⟩
  · rw [← h.length_content] at hlong
    omega

theorem Valid.pushData_of_small (h : u.Valid) {data : Bytes}
    (hsmall : u.content.length + data.length < maxBufferSize / 2) :
    ∃ u', u.pushData data = .ok (data.length, u') ∧ u'.Valid ∧ u'.content = u.content ++ data := by
  have hhalf : maxBufferSize / 2 < 2 ^ 62 := by decide
  have hne : u.readableSize ≠ maxBufferSize := by
    rw [← h.length_content]
    omega
  rcases h.pushData_of_ne hne (show data.length < 2 ^ 64 by omega) with
    ⟨u', hok, hvalid, _, hcontent⟩ | ⟨_, hlong⟩
  · exact ⟨u', hok, hvalid, hcontent⟩
  · rw [← h.length_content] at hlong
    omega

/-- **One call** gives the result of the queue, and leaves the queue. -/
theorem Valid.exec (h : a.buf.Valid) (hproper : Proper a.buf.content op) (hfits : Fits a op) :
    ∃ a', a.exec grow op = .ok ((queueExec a.buf.content op).1, a') ∧ a'.buf.Valid ∧
      a'.buf.content = (queueExec a.buf.content op).2 := by
  cases op with
  | pushData data =>
      obtain ⟨u', hok, hvalid, hcontent⟩ := h.pushData_of_small hproper
      refine ⟨⟨u', a.pushCapacity grow data.length⟩, ?_, hvalid, hcontent⟩
      rw [Allocated.exec, hok]
      rfl
  | peekData nSize =>
      obtain ⟨u', hok, hvalid, _, hcontent⟩ := h.peekData hproper
      refine ⟨⟨u', a.capacity⟩, ?_, hvalid, hcontent⟩
      rw [Allocated.exec, hok]
      rfl
  | peekDataAt nSize offset =>
      refine ⟨a, ?_, h, rfl⟩
      rw [Allocated.exec, h.peekDataAt hfits]
      rfl
  | adjustReadPtr nBytes =>
      have hle : nBytes ≤ a.buf.readableSize := by
        rw [← h.length_content]
        exact hproper
      exact ⟨_, rfl, (h.adjustReadPtr hle).1, (h.adjustReadPtr hle).2⟩
  | shrink tight =>
      obtain ⟨u', hok, hvalid, hcontent⟩ := h.shrink tight
      refine ⟨⟨u', a.shrinkCapacity grow tight⟩, ?_, hvalid, hcontent⟩
      rw [Allocated.exec, show a.capacity = a.buf.buffer.length from hfits, hok]
      rfl
  | clear => exact ⟨_, rfl, h.clear.1, h.clear.2⟩

/-- A call that does not fit fails. -/
theorem Valid.fits_of_exec (h : a.buf.Valid) (hproper : Proper a.buf.content op) {result : BufferResult}
    {a' : Allocated} (hexec : a.exec grow op = .ok (result, a')) : Fits a op := by
  cases op with
  | peekDataAt nSize offset =>
      by_contra hfits
      obtain ⟨hzero, hin⟩ := not_or.mp hfits
      obtain ⟨hin, hsum⟩ := not_or.mp hin
      rw [Allocated.exec, h.peekDataAt_wrap hproper.1 (by omega) (by omega)] at hexec
      cases hexec
  | shrink tight =>
      by_contra hne
      rw [Allocated.exec, shrink_of_ne hne] at hexec
      cases hexec
  | pushData data => trivial
  | peekData nSize => trivial
  | adjustReadPtr nBytes => trivial
  | clear => trivial

section System

variable {ι : Type} [DecidableEq ι]

/-- A call on one of the buffers, or `Swap` of two. -/
inductive Call (ι : Type) where
  | on (i : ι) (op : BufferOp)
  | swap (i j : ι)

/-- `Swap` exchanges the vectors and both positions. -/
def exchange {α : Type} (s : ι → α) (i j : ι) : ι → α :=
  Function.update (Function.update s i (s j)) j (s i)

def call (grow : Nat → Nat → Nat) (s : ι → Allocated) :
    Call ι → Except Fault (BufferResult × (ι → Allocated))
  | .on i op => do
      let (result, a) ← (s i).exec grow op
      return (result, Function.update s i a)
  | .swap i j => .ok (.done, exchange s i j)

/-- The same call on queues. -/
def queueCall (q : ι → Bytes) : Call ι → BufferResult × (ι → Bytes)
  | .on i op => ((queueExec (q i) op).1, Function.update q i (queueExec (q i) op).2)
  | .swap i j => (.done, exchange q i j)

def Call.Proper (q : ι → Bytes) : Call ι → Prop
  | .on i op => UnboundedBuffer.Proper (q i) op
  | .swap _ _ => True

def Call.Fits (s : ι → Allocated) : Call ι → Prop
  | .on i op => UnboundedBuffer.Fits (s i) op
  | .swap _ _ => True

/-- The calls are proper, each for the queues that it is made on. -/
def ProperCalls (q : ι → Bytes) : List (Call ι) → Prop
  | [] => True
  | c :: calls => c.Proper q ∧ ProperCalls (queueCall q c).2 calls

/-- The calls fit, each in the state that it finds. -/
def FittingCalls (grow : Nat → Nat → Nat) (s : ι → Allocated) : List (Call ι) → Prop
  | [] => True
  | c :: calls => c.Fits s ∧ ∀ result s', call grow s c = .ok (result, s') → FittingCalls grow s' calls

/-- Each call returns with the result of the queues, and leaves the buffers as these queues. -/
def Behaves (grow : Nat → Nat → Nat) (s : ι → Allocated) (q : ι → Bytes) : List (Call ι) → Prop
  | [] => True
  | c :: calls => ∃ s', call grow s c = .ok ((queueCall q c).1, s') ∧
      (∀ i, (s' i).buf.IsQueue ((queueCall q c).2 i)) ∧ Behaves grow s' (queueCall q c).2 calls

/-- All buffers are in order, with the content of the queues. -/
def Holds (s : ι → Allocated) (q : ι → Bytes) : Prop := ∀ i, (s i).buf.Valid ∧ (s i).buf.content = q i

variable {s s' : ι → Allocated} {q : ι → Bytes} {c : Call ι} {calls : List (Call ι)}

theorem Holds.update (h : Holds s q) (i : ι) {a : Allocated} {bytes : Bytes} (hvalid : a.buf.Valid)
    (hcontent : a.buf.content = bytes) : Holds (Function.update s i a) (Function.update q i bytes) := by
  intro k
  by_cases hk : k = i
  · rw [hk, Function.update_self, Function.update_self]
    exact ⟨hvalid, hcontent⟩
  · rw [Function.update_of_ne hk, Function.update_of_ne hk]
    exact h k

theorem Holds.exchange (h : Holds s q) (i j : ι) : Holds (exchange s i j) (exchange q i j) :=
  (h.update i (h j).1 (h j).2).update j (h i).1 (h i).2

theorem Holds.call (h : Holds s q) (hproper : c.Proper q) (hfits : c.Fits s) :
    ∃ s', call grow s c = .ok ((queueCall q c).1, s') ∧ Holds s' (queueCall q c).2 := by
  cases c with
  | on i op =>
      obtain ⟨hvalid, hq⟩ := h i
      obtain ⟨a, hexec, hvalid', hcontent⟩ :=
        @Valid.exec grow (s i) op hvalid (by rw [hq]; exact hproper) hfits
      rw [hq] at hexec hcontent
      refine ⟨Function.update s i a, ?_, h.update i hvalid' hcontent⟩
      rw [UnboundedBuffer.call, hexec]
      rfl
  | swap i j => exact ⟨_, rfl, h.exchange i j⟩

theorem Holds.fits_of_call (h : Holds s q) (hproper : c.Proper q) {result : BufferResult}
    (hcall : UnboundedBuffer.call grow s c = .ok (result, s')) : c.Fits s := by
  cases c with
  | on i op =>
      obtain ⟨hvalid, hq⟩ := h i
      obtain ⟨⟨result', a⟩, hexec, _⟩ := exists_of_bind hcall
      exact hvalid.fits_of_exec (by rw [hq]; exact hproper) hexec
  | swap i j => trivial

theorem Holds.behaves_iff (h : Holds s q) (hproper : ProperCalls q calls) :
    Behaves grow s q calls ↔ FittingCalls grow s calls := by
  induction calls generalizing s q with
  | nil => exact Iff.rfl
  | cons c calls ih =>
      obtain ⟨hc, hrest⟩ := hproper
      constructor
      · rintro ⟨s', hcall, _, hbehaves⟩
        have hfits := h.fits_of_call hc hcall
        obtain ⟨s₁, hcall₁, hholds⟩ := @Holds.call grow _ _ s q c h hc hfits
        cases hcall₁.symm.trans hcall
        refine ⟨hfits, fun result s₂ hcall₂ => ?_⟩
        cases hcall₂.symm.trans hcall
        exact (ih hholds hrest).mp hbehaves
      · rintro ⟨hfits, hnext⟩
        obtain ⟨s', hcall, hholds⟩ := @Holds.call grow _ _ s q c h hc hfits
        refine ⟨s', hcall, fun i => ?_, (ih hholds hrest).mpr (hnext _ s' hcall)⟩
        exact (hholds i).2 ▸ (hholds i).1.isQueue

/-- **New buffers are queues in every run** exactly if all calls fit: each `Shrink` finds a vector that has
allocated no more than it uses, and each `PeekDataAt` has arguments whose sum is a `size_t` or returns
at once. -/
theorem buffers_are_queues (grow : Nat → Nat → Nat) {calls : List (Call ι)}
    (hproper : ProperCalls (fun _ => []) calls) :
    Behaves grow (fun _ => {}) (fun _ => []) calls ↔ FittingCalls grow (fun _ => {}) calls := by
  have hnew : Holds (fun _ : ι => {}) fun _ => [] := fun _ => ⟨Valid.new, rfl⟩
  exact hnew.behaves_iff hproper

end System

/-- A library that allocates twice the size, or what is needed if that is more. -/
def doubling (size n : Nat) : Nat := max (2 * size) n

/-- Three bytes are pushed to one of two buffers; it is shrunk, which is possible since the first 64 bytes
are allocated at once, swapped with the other one, and read. -/
theorem buffers_are_queues_three : Behaves doubling (fun _ => {}) (fun _ => [])
    [.on false (.pushData [1, 2, 3]), .on false (.shrink true), .swap false true,
      .on true (.peekDataAt 7 1), .on true (.peekData 2)] := by
  have hpush : Allocated.exec doubling {} (.pushData [1, 2, 3]) =
      .ok (.pushed 3, ⟨⟨0, 3, [1, 2, 3] ++ List.replicate 61 0⟩, 64⟩) := by decide +kernel
  have hcall : call doubling (fun _ => {}) (.on false (.pushData [1, 2, 3])) =
      .ok (.pushed 3, Function.update (fun _ => {}) false ⟨⟨0, 3, [1, 2, 3] ++ List.replicate 61 0⟩, 64⟩) := by
    rw [call, hpush]
    rfl
  have hproper : ProperCalls (fun _ => []) [.on false (.pushData [1, 2, 3]), .on false (.shrink true),
      .swap false true, .on true (.peekDataAt 7 1), .on true (.peekData 2)] :=
    ⟨show 0 + 3 < maxBufferSize / 2 by decide, trivial, trivial,
      show 7 < 2 ^ 64 ∧ 1 < 2 ^ 64 by decide, show 2 < 2 ^ 64 by decide, trivial⟩
  refine (buffers_are_queues doubling hproper).mpr ⟨trivial, fun result s h => ?_⟩
  cases hcall.symm.trans h
  refine ⟨rfl, fun _ _ _ => ⟨trivial, fun _ _ _ => ⟨.inr (.inr ?_), fun _ _ _ => ⟨trivial, ?_⟩⟩⟩⟩
  · decide
  · exact fun _ _ _ => trivial

/-- 65 bytes do not fit into 64; the vector grows to 96 and has 128 allocated, and `Shrink` asserts that
this is not so. -/
theorem not_buffers_are_queues : ProperCalls (fun _ => [])
      [.on () (.pushData (List.replicate 65 7)), .on () (.shrink false)] ∧
    ¬Behaves doubling (fun _ => {}) (fun _ => [])
      [.on () (.pushData (List.replicate 65 7)), .on () (.shrink false)] := by
  have hpush : Allocated.exec doubling {} (.pushData (List.replicate 65 7)) =
      .ok (.pushed 65, ⟨⟨0, 65, List.replicate 65 7 ++ List.replicate 31 0⟩, 128⟩) := by decide +kernel
  have hshrink : Allocated.exec doubling ⟨⟨0, 65, List.replicate 65 7 ++ List.replicate 31 0⟩, 128⟩
      (.shrink false) = .error .assertion := by decide +kernel
  refine ⟨⟨show 0 + 65 < maxBufferSize / 2 by decide, trivial, trivial⟩, ?_⟩
  rintro ⟨s₁, hcall₁, _, s₂, hcall₂, _⟩
  rw [call, hpush] at hcall₁
  cases hcall₁
  rw [call, Function.update_self, hshrink] at hcall₂
  cases hcall₂

end Eraft.UnboundedBuffer
