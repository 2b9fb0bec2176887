import Eraft.UnboundedBuffer
import Eraft.BaseDecimal

/-! The encoders of `network/src/common.cc`: a list of strings is written as the number of strings and then
each string with its length in front. Lengths are printed in decimal with `snprintf`, whose buffer of 31
bytes is long enough for any of them. -/

namespace Eraft

def digitByte (d : Nat) : UInt8 := UInt8.ofNat (48 + d)

/-- The number as `%lu` prints it. -/
def decimal (n : Nat) : Bytes := (Decimal.digits n).map digitByte

def crlf : Bytes := [13, 10]

/-- What `PreFormatMultiBulk` appends. -/
def multiBulk (nBulk : Nat) : Bytes := 42 :: (decimal nBulk ++ crlf)

/-- What `FormatBulk` appends. -/
def bulk (str : Bytes) : Bytes := 36 :: (decimal str.length ++ crlf ++ (str ++ crlf))

/-- The whole list. -/
def request (strs : List Bytes) : Bytes := multiBulk strs.length ++ strs.flatMap bulk

def preFormatMultiBulk (nBulk : Nat) (reply : UnboundedBuffer) : Except Fault (Nat × UnboundedBuffer) := do
  let oldSize := reply.readableSize
  let (_, reply) ← reply.pushData [42]
  let (_, reply) ← reply.pushData (decimal nBulk ++ crlf)
  return (u64Sub reply.readableSize oldSize, reply)

def formatBulk (str : Bytes) (reply : UnboundedBuffer) : Except Fault (Nat × UnboundedBuffer) := do
  let oldSize := reply.readableSize
  let (_, reply) ← reply.pushData [36]
  let (_, reply) ← reply.pushData (decimal str.length ++ crlf)
  let (_, reply) ← if 0 < str.length then reply.pushData str else .ok (0, reply)
  let (_, reply) ← reply.pushData crlf
  return (u64Sub reply.readableSize oldSize, reply)

/-- `PreFormatMultiBulk` with the number of the strings, and `FormatBulk` of each one. -/
def encode (strs : List Bytes) : Except Fault UnboundedBuffer := do
  let (_, reply) ← preFormatMultiBulk strs.length {}
  strs.foldlM (fun reply str => (formatBulk str reply).map Prod.snd) reply

/-- A buffer that has only been appended to. -/
structure Holds (reply : UnboundedBuffer) (bytes : Bytes) : Prop where
  valid : reply.Valid
  grown : reply.buffer.length ∈ UnboundedBuffer.grownSizes
  content : reply.content = bytes

variable {reply : UnboundedBuffer} {bytes data : Bytes}

theorem Holds.empty : Holds {} [] := ⟨.new, List.mem_cons_self, rfl⟩

theorem Holds.readableSize (h : Holds reply bytes) : reply.readableSize = bytes.length := by
  rw [← h.valid.length_content, h.content]

theorem Holds.pushData (h : Holds reply bytes) (hlen : (bytes ++ data).length ≤ 2 ^ 62) :
    ∃ reply', reply.pushData data = .ok (data.length, reply') ∧ Holds reply' (bytes ++ data) := by
  rw [List.length_append] at hlen
  rcases h.valid.pushData h.grown (by omega : data.length < 2 ^ 64) with
    ⟨reply', hpush, hvalid, hgrown, hcontent⟩ | ⟨_, hlong⟩
  · exact ⟨reply', hpush, hvalid, hgrown, by rw [hcontent, h.content]⟩
  · rw [h.readableSize] at hlong
    omega

/-- What an encoder returns: the bytes it has added. -/
theorem Holds.added {reply' : UnboundedBuffer} {data : Bytes} (h : Holds reply bytes)
    (h' : Holds reply' (bytes ++ data)) : u64Sub reply'.readableSize reply.readableSize = data.length := by
  rw [h'.readableSize, h.readableSize, List.length_append, u64Sub_of_le (Nat.le_add_right _ _),
    Nat.add_sub_cancel_left]

theorem length_le_of_append {xs ys : Bytes} {n : Nat} (h : (xs ++ ys).length ≤ n) : xs.length ≤ n :=
  (List.prefix_append xs ys).length_le.trans h

theorem Holds.preFormatMultiBulk {nBulk : Nat} (h : Holds reply bytes)
    (hlen : (bytes ++ multiBulk nBulk).length ≤ 2 ^ 62) : ∃ reply',
      Eraft.preFormatMultiBulk nBulk reply = .ok ((multiBulk nBulk).length, reply') ∧
      Holds reply' (bytes ++ multiBulk nBulk) := by
  have hsplit : bytes ++ multiBulk nBulk = bytes ++ [42] ++ (decimal nBulk ++ crlf) := by
    rw [List.append_assoc]
    rfl
  rw [hsplit] at hlen
  obtain ⟨r₁, hr₁, h₁⟩ := h.pushData (length_le_of_append hlen)
  obtain ⟨r₂, hr₂, h₂⟩ := h₁.pushData hlen
  rw [← hsplit] at h₂
  refine ⟨r₂, ?_, h₂⟩
  rw [← h.added h₂]
  unfold Eraft.preFormatMultiBulk
  rw [hr₁]
  simp only [bind, Except.bind]
  rw [hr₂]
  rfl

theorem Holds.formatBulk {str : Bytes} (h : Holds reply bytes)
    (hlen : (bytes ++ bulk str).length ≤ 2 ^ 62) : ∃ reply',
      Eraft.formatBulk str reply = .ok ((bulk str).length, reply') ∧ Holds reply' (bytes ++ bulk str) := by
  have hsplit : bytes ++ bulk str = bytes ++ [36] ++ (decimal str.length ++ crlf) ++ str ++ crlf := by
    rw [List.append_assoc (_ ++ _) str, List.append_assoc (bytes ++ [36]), List.append_assoc bytes]
    rfl
  have hle : (bytes ++ [36] ++ (decimal str.length ++ crlf) ++ str ++ crlf).length ≤ 2 ^ 62 := hsplit ▸ hlen
  have hstr := length_le_of_append hle
  have hcount := length_le_of_append hstr
  obtain ⟨r₁, hr₁, h₁⟩ := h.pushData (length_le_of_append hcount)
  obtain ⟨r₂, hr₂, h₂⟩ := h₁.pushData hcount
  obtain ⟨k, r₃, hr₃, h₃⟩ : ∃ k r₃,
      (if 0 < str.length then r₂.pushData str else .ok (0, r₂)) = .ok (k, r₃) ∧
        Holds r₃ (bytes ++ [36] ++ (decimal str.length ++ crlf) ++ str) := by
    split_ifs with hpos
    · obtain ⟨r₃, hr₃, h₃⟩ := h₂.pushData hstr
      exact ⟨_, r₃, hr₃, h₃⟩
    · rw [List.length_eq_zero_iff.mp (Nat.eq_zero_of_not_pos hpos), List.append_nil]
      exact ⟨0, r₂, rfl, List.length_eq_zero_iff.mp (Nat.eq_zero_of_not_pos hpos) ▸ h₂⟩
  obtain ⟨r₄, hr₄, h₄⟩ := h₃.pushData hle
  rw [← hsplit] at h₄
  refine ⟨r₄, ?_, h₄⟩
  rw [← h.added h₄]
  unfold Eraft.formatBulk
  rw [hr₁]
  simp only [bind, Except.bind]
  rw [hr₂]
  dsimp only
  split_ifs at hr₃ ⊢ with hpos
  · rw [hr₃]
    dsimp only
    rw [hr₄]
    rfl
  · cases hr₃
    rw [hr₄]
    rfl

/-- **The encoders write the request.** -/
theorem encode_spec {strs : List Bytes} (hlen : (request strs).length ≤ 2 ^ 62) :
    ∃ reply, encode strs = .ok reply ∧ reply.content = request strs := by
  have hloop : ∀ (strs : List Bytes) (reply : UnboundedBuffer) (bytes : Bytes), Holds reply bytes →
      (bytes ++ strs.flatMap bulk).length ≤ 2 ^ 62 → ∃ reply',
        strs.foldlM (fun reply str => (formatBulk str reply).map Prod.snd) reply = .ok reply' ∧
        Holds reply' (bytes ++ strs.flatMap bulk) := by
    intro strs
    induction strs with
    | nil => exact fun reply bytes h _ => ⟨reply, rfl, (List.append_nil bytes).symm ▸ h⟩
    | cons str strs ih =>
        intro reply bytes h hlen
        rw [List.flatMap_cons, ← List.append_assoc] at hlen ⊢
        obtain ⟨r₁, hr₁, h₁⟩ := h.formatBulk (length_le_of_append hlen)
        obtain ⟨r₂, hr₂, h₂⟩ := ih r₁ _ h₁ hlen
        refine ⟨r₂, ?_, h₂⟩
        rw [List.foldlM_cons, hr₁]
        exact hr₂
  have hfirst : ([] ++ multiBulk strs.length).length ≤ 2 ^ 62 := by
    rw [request, List.length_append] at hlen
    rw [List.nil_append]
    omega
  obtain ⟨r₁, hr₁, h₁⟩ := Holds.empty.preFormatMultiBulk hfirst
  obtain ⟨r₂, hr₂, h₂⟩ := hloop strs r₁ _ h₁ (by rw [List.nil_append]; exact hlen)
  refine ⟨r₂, ?_, h₂.content⟩
  unfold encode
  rw [hr₁]
  exact hr₂

end Eraft
