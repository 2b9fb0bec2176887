import Eraft.CommandTable

/-! `Executor::ExecuteCmd` (`network/src/executor.cc`) with the commands of `network/src/cmd_string.cc`. The
engine is not part of the repository; nothing is assumed of what its calls return. -/

namespace Eraft

/-- The calls of `pmem::kv::db` that the commands make. Of the status of `put` and `remove` only matters whether
it is `OK`, and of that of `get` whether it is `NOT_FOUND`, which is `none`. -/
structure Engine (σ ι : Type) extends Iterators σ ι where
  put : σ → Bytes → Bytes → Bool × σ
  get : σ → Bytes → Option Bytes
  remove : σ → Bytes → Bool × σ

/-- One such engine: a list of entries in the order of their keys. -/
def listEngine : Engine (List (Bytes × Bytes)) ScanIterator where
  toIterators := ScanIterator.iterators
  put entries key value := (true, entries.filter (·.1 < key) ++ (key, value) :: entries.filter (key < ·.1))
  get entries key := entries.lookup key
  remove entries key := (entries.any (·.1 == key), entries.filter (·.1 != key))

variable {σ ι : Type}

namespace Command

variable (engine : Engine σ ι) (db : σ) (params : List Bytes) (reply : UnboundedBuffer)

def set : Except Fault (Error × σ × UnboundedBuffer) :=
  match params with
  | _ :: key :: value :: _ => do
      let (stored, db) := engine.put db key value
      if stored then
        let (_, reply) ← formatOK reply
        return (.ok, db, reply)
      else
        let reply ← replyError .param reply
        return (.param, db, reply)
  | _ => .error .outOfBounds

def get : Except Fault (Error × σ × UnboundedBuffer) :=
  match params with
  | _ :: key :: _ => do
      match engine.get db key with
      | none =>
          let (_, reply) ← formatNull reply
          return (.ok, db, reply)
      | some value =>
          let (_, reply) ← formatBulk value reply
          return (.ok, db, reply)
  | _ => .error .outOfBounds

def del : Except Fault (Error × σ × UnboundedBuffer) :=
  match params with
  | _ :: key :: _ => do
      let (removed, db) := engine.remove db key
      if removed then
        let (_, reply) ← formatInt 1 reply
        return (.ok, db, reply)
      else
        let (_, reply) ← formatInt 0 reply
        return (.ok, db, reply)
  | _ => .error .outOfBounds

/-- `matchKeys` of a page. -/
def matchKeys (page : ScanPage) : List Bytes := page.matchKeys.flatMap fun e => [e.1, e.2]

def scan : Except Fault (Error × σ × UnboundedBuffer) := do
  match ← Eraft.scan engine.toIterators db params with
  | none =>
      let reply ← replyError .param reply
      return (.param, db, reply)
  | some page =>
      let (_, reply) ← preFormatMultiBulk 2 reply
      let (_, reply) ← formatBulk (decimal page.cursor) reply
      let (_, reply) ← preFormatMultiBulk (matchKeys page).length reply
      let reply ← (matchKeys page).foldlM (fun reply s => (formatBulk s reply).map Prod.snd) reply
      return (.ok, db, reply)

end Command

def CommandHandler.call (handler : CommandHandler) (engine : Engine σ ι) (db : σ)
    (params : List Bytes) (reply : UnboundedBuffer) : Except Fault (Error × σ × UnboundedBuffer) :=
  match handler with
  | .set => Command.set engine db params reply
  | .get => Command.get engine db params reply
  | .del => Command.del engine db params reply
  | .scan => Command.scan engine db params reply

def executeCmd (engine : Engine σ ι) (db : σ) (params : List Bytes) (reply : UnboundedBuffer) :
    Except Fault (Error × σ × UnboundedBuffer) :=
  match params with
  | [] => do
      let reply ← replyError .param reply
      return (.param, db, reply)
  | name :: _ =>
      match CommandTable.init.getCommandInfo name with
      | none => do
          let reply ← replyError .unknowCmd reply
          return (.unknowCmd, db, reply)
      | some info =>
          if info.checkParamsCount (toInt params.length) = false then do
            let reply ← replyError .param reply
            return (.param, db, reply)
          else info.handler.call engine db params reply

/-- The answer of a command, before it is written down. -/
def CommandHandler.answer (handler : CommandHandler) (engine : Engine σ ι) (db : σ)
    (params : List Bytes) : Except Fault (Reply × σ) :=
  match handler, params with
  | .set, _ :: key :: value :: _ =>
      .ok (if (engine.put db key value).1 then .ok else .error .param, (engine.put db key value).2)
  | .get, _ :: key :: _ => .ok (.bulk (engine.get db key), db)
  | .del, _ :: key :: _ => .ok (.int (if (engine.remove db key).1 then 1 else 0), (engine.remove db key).2)
  | .scan, params => do
      match ← Eraft.scan engine.toIterators db params with
      | none => return (.error .param, db)
      | some page => return (.page page.cursor (Command.matchKeys page), db)
  | _, _ => .error .outOfBounds

/-- The answer to a request. -/
def answer (engine : Engine σ ι) (db : σ) (params : List Bytes) : Except Fault (Reply × σ) :=
  match params with
  | [] => .ok (.error .param, db)
  | name :: _ =>
      match CommandTable.init.getCommandInfo name with
      | none => .ok (.error .unknowCmd, db)
      | some info =>
          if info.checkParamsCount (toInt params.length) = false then .ok (.error .param, db)
          else info.handler.answer engine db params

/-- The code writes the answer behind what was there, if there is one and it fits. -/
def Answered (written : Bytes) (ans : Except Fault (Reply × σ))
    (res : Except Fault (Error × σ × UnboundedBuffer)) : Prop :=
  ∀ r db, ans = .ok (r, db) → r.Proper ∧ ((written ++ r.bytes).length ≤ 2 ^ 62 →
    ∃ reply, res = .ok (r.status, db, reply) ∧ Holds reply (written ++ r.bytes))

variable {engine : Engine σ ι} {db : σ} {params : List Bytes} {reply : UnboundedBuffer} {written : Bytes}

/-- A command that ends with `ReplyError`. -/
theorem Answered.replyError {err : Error} {errorStr : Bytes} (h : Holds reply written)
    (herr : errorInfo err = some errorStr) (hproper : err ∉ [Error.nop, .ok, .exist]) :
    Answered written (.ok (.error err, db)) (do
      let reply ← Eraft.replyError err reply
      return (err, db, reply)) := by
  intro r db' hans
  cases hans
  have hbytes : (Reply.error err).bytes = errorStr := by
    rw [Reply.bytes, herr]
    rfl
  refine ⟨hproper, fun hlen => ?_⟩
  rw [hbytes] at hlen ⊢
  obtain ⟨reply', hreply, h'⟩ := h.replyError herr hlen
  refine ⟨reply', ?_, h'⟩
  rw [hreply]
  rfl

/-- A command that ends with one of the other formatters. -/
theorem Answered.format {r : Reply} {format : Except Fault (Nat × UnboundedBuffer)} {n : Nat}
    (hproper : r.Proper) (hstatus : r.status = .ok)
    (hformat : (written ++ r.bytes).length ≤ 2 ^ 62 →
      ∃ reply, format = .ok (n, reply) ∧ Holds reply (written ++ r.bytes)) :
    Answered written (.ok (r, db)) (do
      let (_, reply) ← format
      return (.ok, db, reply)) := by
  intro r' db' hans
  cases hans
  refine ⟨hproper, fun hlen => ?_⟩
  obtain ⟨reply', hreply, h'⟩ := hformat hlen
  refine ⟨reply', ?_, h'⟩
  rw [hreply, hstatus]
  rfl

theorem Answered.set (h : Holds reply written) :
    Answered written (CommandHandler.set.answer engine db params)
      (Command.set engine db params reply) := by
  rcases params with _ | ⟨name, _ | ⟨key, _ | ⟨value, rest⟩⟩⟩
  iterate 3 exact nofun
  unfold Command.set CommandHandler.answer
  dsimp only
  split_ifs
  · exact .format trivial rfl fun hlen => h.formatText hlen
  · exact .replyError h rfl (by decide)

theorem Answered.get (h : Holds reply written) :
    Answered written (CommandHandler.get.answer engine db params) (Command.get engine db params reply) := by
  rcases params with _ | ⟨name, _ | ⟨key, rest⟩⟩
  iterate 2 exact nofun
  unfold Command.get CommandHandler.answer
  dsimp only
  cases engine.get db key with
  | none => exact .format trivial rfl fun hlen => h.formatText hlen
  | some value => exact .format trivial rfl fun hlen => h.formatBulk hlen

theorem Answered.del (h : Holds reply written) :
    Answered written (CommandHandler.del.answer engine db params) (Command.del engine db params reply) := by
  rcases params with _ | ⟨name, _ | ⟨key, rest⟩⟩
  iterate 2 exact nofun
  unfold Command.del CommandHandler.answer
  dsimp only
  split_ifs
  · exact .format trivial rfl fun hlen => h.formatInt hlen
  · exact .format trivial rfl fun hlen => h.formatInt hlen

theorem Answered.scan (h : Holds reply written) :
    Answered written (CommandHandler.scan.answer engine db params) (Command.scan engine db params reply) := by
  unfold CommandHandler.answer Command.scan
  dsimp only
  generalize Eraft.scan engine.toIterators db params = found
  cases found with
  | error fault => exact nofun
  | ok found =>
      rw [ok_bind, ok_bind]
      cases found with
      | none => exact .replyError h rfl (by decide)
      | some page =>
          intro r db' hans
          cases hans
          refine ⟨trivial, fun hlen => ?_⟩
          have hsplit : written ++ (Reply.page page.cursor (Command.matchKeys page)).bytes =
              written ++ multiBulk 2 ++ bulk (decimal page.cursor) ++
                multiBulk (Command.matchKeys page).length ++ (Command.matchKeys page).flatMap bulk := by
            simp only [Reply.bytes, request, List.append_assoc]
          rw [hsplit] at hlen ⊢
          have h₃ := length_le_of_append hlen
          have h₂ := length_le_of_append h₃
          obtain ⟨r₁, hr₁, h₁⟩ := h.preFormatMultiBulk (length_le_of_append h₂)
          obtain ⟨r₂, hr₂, h₂⟩ := h₁.formatBulk h₂
          obtain ⟨r₃, hr₃, h₃⟩ := h₂.preFormatMultiBulk h₃
          obtain ⟨r₄, hr₄, h₄⟩ := h₃.formatBulks hlen
          refine ⟨r₄, ?_, h₄⟩
          simp only [ok_bind, hr₁, hr₂, hr₃, hr₄]
          rfl

theorem Answered.call (h : Holds reply written) (handler : CommandHandler) :
    Answered written (handler.answer engine db params) (handler.call engine db params reply) := by
  cases handler with
  | set => exact .set h
  | get => exact .get h
  | del => exact .del h
  | scan => exact .scan h

/-- **The executor writes down the answer.** -/
theorem Answered.executeCmd (h : Holds reply written) :
    Answered written (answer engine db params) (Eraft.executeCmd engine db params reply) := by
  cases params with
  | nil => exact .replyError h rfl (by decide)
  | cons name args =>
      unfold answer Eraft.executeCmd
      dsimp only
      cases CommandTable.init.getCommandInfo name with
      | none => exact .replyError h rfl (by decide)
      | some info =>
          dsimp only
          split_ifs
          · exact .replyError h rfl (by decide)
          · exact .call h info.handler

end Eraft
