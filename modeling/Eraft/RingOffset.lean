import Eraft.CircularBuffer

/-! `PushDataAt` with an offset. `PeekDataAt` reads from the offset position on; `PushDataAt` computes the
offset position too, but only to choose a branch, and writes from `writePos_` on. The bytes land
`offset` cells too early, and where the branch belongs to a position behind the wrap, the copy runs over
the end of the ring. -/

namespace Eraft

namespace CircularBuffer

variable {b : CircularBuffer} {data : Bytes} {offset n : Nat}

/-- The data is stored `offset` cells behind the readable bytes: they stay as they are, and when the
position is moved, they are followed by some bytes and the data, which can be read back. -/
def Honours (b : CircularBuffer) (data : Bytes) (offset : Nat) : Prop :=
  ∃ b', b.pushDataAt data offset = .ok (true, b') ∧ b'.content = b.content ∧
    (∃ gap, gap.length = offset ∧
      (b'.adjustWritePtr (offset + data.length)).content = b.content ++ (gap ++ data)) ∧
    (b'.adjustWritePtr (offset + data.length)).peekDataAt true data.length (b.readableSize + offset) =
      .ok (true, data)

/-- The data does not run over the end of the ring in the wrong branch, and the bytes it is expected to
become happen to be the same: those further back in the data, and the old ones behind it. -/
def Coincides (b : CircularBuffer) (data : Bytes) (offset : Nat) : Prop :=
  (b.maxSize ≤ b.writePos + offset → b.writePos + data.length ≤ b.maxSize) ∧
  ∀ i < data.length, data[i]? = if offset + i < b.copied data.length offset then data[offset + i]?
    else b.buffer[(b.writePos + (offset + i)) % b.maxSize]?

/-- Reading from an offset is reading from the front of what is left. -/
theorem Valid.peekDataAt (h : b.Valid) (hpos : 0 < n) (hn : offset + n ≤ b.readableSize) :
    b.peekDataAt true n offset = .ok (true, (b.content.drop offset).take n) := by
  have hlt := h.readableSize_lt
  have hmax := h.maxSize_lt
  obtain ⟨hvalid, hcontent⟩ := h.adjustReadPtr (k := offset) (by omega)
  have hsize : (b.adjustReadPtr offset).readableSize = b.readableSize - offset := by
    rw [← hvalid.length_content, hcontent, List.length_drop, h.length_content]
  have hzero := hvalid.peekDataAt_zero (n := n) (by omega)
  rw [hcontent] at hzero
  rw [← hzero]
  have hreadPos : u64Add (b.adjustReadPtr offset).readPos 0 &&& (b.adjustReadPtr offset).mask =
      u64Add b.readPos offset &&& b.mask := by
    rw [hvalid.u64Add_mask, Nat.add_zero, Nat.mod_eq_of_lt hvalid.readPos]
    rfl
  have hgiven : ¬(true = false ∨ n = 0) := by
    simp only [Bool.true_eq_false, false_or]
    omega
  have hadd : u64Add n offset = n + offset := Nat.mod_eq_of_lt (by omega)
  have hadd' : u64Add n 0 = n := Nat.mod_eq_of_lt (by omega)
  have hroom : ¬b.readableSize < u64Add n offset := by omega
  have hroom' : ¬(b.adjustReadPtr offset).readableSize < u64Add n 0 := by omega
  unfold CircularBuffer.peekDataAt
  rw [if_neg hgiven, if_neg hgiven, if_neg hroom, if_neg hroom', hreadPos]
  rfl

/-- Data written behind the queue is not a part of it yet, and then becomes one with the cells behind. -/
theorem Valid.write (h : b.Valid) {m : Nat} (hdata : data.length ≤ m) (hroom : m ≤ b.writeableSize) :
    let b' := { b with buffer := Ring.putAround b.buffer b.writePos data }
    b'.content = b.content ∧ (b'.adjustWritePtr m).Valid ∧
      (b'.adjustWritePtr m).content = b.content ++ Ring.held b'.buffer b.writePos m := by
  intro b'
  have hr := h.readPos
  have hw := h.writePos
  have hlen := h.length
  have hlt := h.readableSize_lt
  have hfree := h.writeableSize_eq
  have hl : b'.buffer.length = b.maxSize := (Ring.length_putAround (by omega) (by omega)).trans hlen
  have hkeep : Ring.held b'.buffer b.readPos b.readableSize = b.content := by
    have hheld := Ring.held_putAround (l := b.buffer) (r := b.readPos) (w := b.writePos) (d := data) (by omega)
      (by omega) (by rw [hlen, ← h.readableSize_eq]; omega)
    rw [hlen, ← h.readableSize_eq] at hheld
    rw [← Ring.take_held (Nat.le_add_right b.readableSize data.length), hheld, content,
      List.take_left' (Ring.length_held (by omega))]
  have hend : Ring.held b'.buffer (b.readPos + b.readableSize) m = Ring.held b'.buffer b.writePos m := by
    rw [← Ring.held_mod, hl, h.readableSize_eq, Ring.add_mod_eq hr (Ring.dist_lt hr).le, Ring.dist_eq hr hw]
    congr 1
    split_ifs <;> omega
  obtain ⟨hvalid, hsize⟩ := h.moveWritePos hl hroom
  refine ⟨hkeep, hvalid, ?_⟩
  calc (b'.adjustWritePtr m).content = Ring.held b'.buffer b.readPos (b.readableSize + m) := by
        rw [content, hsize]
        rfl
    _ = b.content ++ Ring.held b'.buffer b.writePos m := by
        rw [Ring.held_add (by omega), hkeep, hend]

/-- The cells behind `offset`, after the data has been written at `writePos_`. -/
theorem Valid.drop_held_eq_iff (h : b.Valid) (hroom : offset + data.length ≤ b.writeableSize) :
    (Ring.held (Ring.putAround b.buffer b.writePos (data.take (b.copied data.length offset))) b.writePos
        (offset + data.length)).drop offset = data ↔
      ∀ i < data.length, data[i]? = if offset + i < b.copied data.length offset then data[offset + i]?
        else b.buffer[(b.writePos + (offset + i)) % b.maxSize]? := by
  have hlen := h.length
  have hfree := h.writeableSize_eq
  have hle := @copied_le b offset data.length
  generalize b.copied data.length offset = w at hle
  have htake : (data.take w).length = w := by rw [List.length_take, Nat.min_eq_left hle]
  have hcell : ∀ i < data.length,
      ((Ring.held (Ring.putAround b.buffer b.writePos (data.take w)) b.writePos
        (offset + data.length)).drop offset)[i]? =
      if offset + i < w then data[offset + i]? else b.buffer[(b.writePos + (offset + i)) % b.maxSize]? := by
    intro i hi
    rw [List.getElem?_drop, Ring.getElem?_held_putAround (by rw [hlen]; exact h.writePos) (by omega) (by omega)
      (by omega), htake, hlen]
    split_ifs with hlt
    · rw [List.getElem?_take, if_pos hlt]
    · rfl
  constructor
  · intro heq i hi
    rw [← hcell i hi, heq]
  · intro hbytes
    have hl : (Ring.putAround b.buffer b.writePos (data.take w)).length = b.buffer.length :=
      Ring.length_putAround (by rw [hlen]; exact h.writePos) (by omega)
    apply List.ext_getElem?
    intro i
    by_cases hi : i < data.length
    · rw [hcell i hi, hbytes i hi]
    · rw [List.getElem?_eq_none, List.getElem?_eq_none (by omega)]
      rw [List.length_drop, Ring.length_held (by omega)]
      omega

section

variable (h : b.Valid) (hpos : 0 < data.length) (hroom : offset + data.length ≤ b.writeableSize)

include h hpos hroom

/-- Behind the wrap, the data is copied as if there were no end of the ring. -/
theorem Valid.pushDataAt_behind (hwrap : b.maxSize ≤ b.writePos + offset) :
    b.pushDataAt data offset = (store b.buffer b.writePos data).map fun l => (true, { b with buffer := l }) := by
  have hr := h.readPos
  have hw := h.writePos
  have hmax := h.maxSize_lt
  have hfree := h.writeableSize_eq
  have hadd : u64Add offset data.length = offset + data.length := Nat.mod_eq_of_lt (by omega)
  have hoffset : u64Add b.writePos offset &&& b.mask = b.writePos + offset - b.maxSize := by
    rw [h.u64Add_mask, Ring.add_mod_eq hw (by omega), if_neg (by omega)]
  rw [h.readableSize_eq, Ring.dist_eq hr hw] at hfree
  unfold CircularBuffer.pushDataAt
  dsimp only
  rw [if_neg (by omega), hadd, if_neg (by omega), hoffset]
  have hbefore : b.writePos + offset - b.maxSize < b.readPos ∧
      data.length < b.readPos - (b.writePos + offset - b.maxSize) := by
    split_ifs at hfree <;> omega
  rw [if_pos hbefore.1, require_of hbefore.2, ok_bind]
  cases store b.buffer b.writePos data <;> rfl

/-- The bytes that become readable are the ones written at `writePos_` and old ones behind them. -/
theorem Valid.honours_iff (hpush : b.pushDataAt data offset = .ok (true,
      { b with buffer := Ring.putAround b.buffer b.writePos (data.take (b.copied data.length offset)) })) :
    b.Honours data offset ↔ ∀ i < data.length,
      data[i]? = if offset + i < b.copied data.length offset then data[offset + i]?
        else b.buffer[(b.writePos + (offset + i)) % b.maxSize]? := by
  have hle := @copied_le b offset data.length
  have hfree := h.writeableSize_eq
  have hlen := h.length
  have htake : (data.take (b.copied data.length offset)).length ≤ offset + data.length := by
    rw [List.length_take]
    omega
  obtain ⟨hkeep, hvalid, hcontent⟩ := h.write htake hroom
  rw [← h.drop_held_eq_iff hroom]
  generalize hb' : ({ b with
    buffer := Ring.putAround b.buffer b.writePos (data.take (b.copied data.length offset)) } : CircularBuffer) = b'
    at hpush hkeep hvalid hcontent
  have hbuffer : Ring.putAround b.buffer b.writePos (data.take (b.copied data.length offset)) = b'.buffer := by
    rw [← hb']
  have hl : b'.buffer.length = b.buffer.length := by
    rw [← hbuffer]
    exact Ring.length_putAround (by rw [hlen]; exact h.writePos) (by rw [List.length_take]; omega)
  have hsize : (b'.adjustWritePtr (offset + data.length)).readableSize =
      b.readableSize + (offset + data.length) := by
    rw [← hvalid.length_content, hcontent, List.length_append, h.length_content, Ring.length_held (by omega)]
  rw [hbuffer]
  constructor
  · rintro ⟨b'', hpush', _, ⟨gap, hgap, hcontent'⟩, _⟩
    cases hpush.symm.trans hpush'
    rw [List.append_cancel_left (hcontent.symm.trans hcontent'), List.drop_left' hgap]
  · intro hdrop
    refine ⟨b', hpush, hkeep, ⟨(Ring.held b'.buffer b.writePos (offset + data.length)).take offset, ?_, ?_⟩, ?_⟩
    · rw [List.length_take, Ring.length_held (by omega)]
      omega
    · nth_rewrite 3 [← hdrop]
      rw [List.take_append_drop, hcontent]
    · rw [hvalid.peekDataAt hpos (by omega), hcontent, ← h.length_content, ← List.drop_drop, List.drop_left,
        hdrop, List.take_length]

end

/-- **An offset is honoured** only where the bytes coincide. -/
theorem pushDataAt_honours_iff (h : b.Valid) (hpos : 0 < data.length)
    (hroom : offset + data.length ≤ b.writeableSize) : b.Honours data offset ↔ b.Coincides data offset := by
  have hlen := h.length
  unfold Coincides
  rcases Nat.lt_or_ge (b.writePos + offset) b.maxSize with hwrap | hwrap
  · rw [h.honours_iff hpos hroom (h.pushDataAt_before hpos hroom hwrap)]
    exact ⟨fun hbytes => ⟨fun hle => absurd hwrap (Nat.not_lt.mpr hle), hbytes⟩, fun hboth => hboth.2⟩
  · have hbehind := h.pushDataAt_behind hpos hroom hwrap
    by_cases hin : b.writePos + data.length ≤ b.maxSize
    · have hcopied : b.copied data.length offset = data.length := if_pos (.inl hwrap)
      have hpush : b.pushDataAt data offset = .ok (true, { b with
          buffer := Ring.putAround b.buffer b.writePos (data.take (b.copied data.length offset)) }) := by
        rw [hbehind, store_of_le (by omega), hcopied, List.take_length, Ring.putAround, if_pos (by omega)]
        rfl
      rw [h.honours_iff hpos hroom hpush]
      exact ⟨fun hbytes => ⟨fun _ => hin, hbytes⟩, fun hboth => hboth.2⟩
    · refine ⟨?_, fun hboth => absurd (hboth.1 hwrap) hin⟩
      rintro ⟨b', hpush, _⟩
      rw [hbehind, store, if_neg (by omega)] at hpush
      cases hpush

instance (b : CircularBuffer) (data : Bytes) (offset : Nat) : Decidable (b.Coincides data offset) := by
  unfold Coincides
  infer_instance

/-- Without an offset the data goes around the end of the ring. -/
theorem pushDataAt_honours_around :
    let b : CircularBuffer := ⟨4, 3, 3, [0, 0, 0, 0]⟩
    b.pushDataAt [1, 2] 0 = .ok (true, ⟨4, 3, 3, [2, 0, 0, 1]⟩) ∧ b.Honours [1, 2] 0 := by
  intro b
  have hvalid : b.Valid := ⟨⟨2, by decide, rfl⟩, by decide, by decide, rfl⟩
  have hroom : 0 + [1, 2].length ≤ b.writeableSize := by decide +kernel
  refine ⟨by decide +kernel, (pushDataAt_honours_iff hvalid (by decide) hroom).mpr ?_⟩
  decide +kernel

/-- With the offset 1 the byte is written to the cell in front of the one it is read from. -/
theorem not_pushDataAt_honours :
    let b : CircularBuffer := ⟨4, 0, 0, [0, 0, 0, 0]⟩
    b.Valid ∧ 1 + 1 ≤ b.writeableSize ∧ b.pushDataAt [97] 1 = .ok (true, ⟨4, 0, 0, [97, 0, 0, 0]⟩) ∧
      ¬b.Honours [97] 1 := by
  intro b
  have hpush : b.pushDataAt [97] 1 = .ok (true, ⟨4, 0, 0, [97, 0, 0, 0]⟩) := by decide +kernel
  refine ⟨⟨⟨2, by decide, rfl⟩, by decide, by decide, rfl⟩, by decide +kernel, hpush, ?_⟩
  rintro ⟨b', hpush', _, _, hpeek⟩
  cases hpush.symm.trans hpush'
  have hsize : b.readableSize = 0 := by decide +kernel
  rw [hsize] at hpeek
  have hread : (CircularBuffer.adjustWritePtr ⟨4, 0, 0, [97, 0, 0, 0]⟩ 2).peekDataAt true 1 (0 + 1) =
      .ok (true, [0]) := by decide +kernel
  cases hread.symm.trans hpeek

end CircularBuffer

end Eraft
