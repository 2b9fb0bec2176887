import Eraft.CommandReply
import Eraft.ScanCommand

/-! The table of the commands (`network/src/cmd.cc`). It is a `std::map` whose order is `NocaseComp`, so
that names are compared as C strings and without regard to case. -/

open Std

namespace Eraft

/-- What `strcasecmp` looks at. -/
def caseFold (name : Bytes) : Bytes := (cString name).map toLower

/-- The functions of the type `CommandHandler`. -/
inductive CommandHandler where
  | set
  | get
  | del
  | scan
  deriving DecidableEq

structure CommandInfo where
  cmd : Bytes
  params : Int
  handler : CommandHandler
  deriving DecidableEq

/-- `CheckParamsCount`. A number that is not positive is a lower bound, with the sign changed. -/
def CommandInfo.checkParamsCount (info : CommandInfo) (nParams : Int) : Bool :=
  if 0 < info.params then decide (info.params = nParams) else decide (0 ≤ nParams + info.params)

/-- `s_handlers`. -/
abbrev CommandTable := ExtTreeMap Bytes CommandInfo (compareOn caseFold)

namespace CommandTable

/-- `s_info`. -/
def info : List CommandInfo :=
  [{ cmd := ascii "set", params := 3, handler := .set },
   { cmd := ascii "get", params := 2, handler := .get },
   { cmd := ascii "del", params := 2, handler := .del },
   { cmd := ascii "scan", params := -2, handler := .scan }]

/-- `Init`. -/
def init : CommandTable := info.foldl (fun table info => table.insert info.cmd info) ∅

def getCommandInfo (table : CommandTable) (cmd : Bytes) : Option CommandInfo := table[cmd]?

theorem compareOn_caseFold {a b : Bytes} : compareOn caseFold a b = .eq ↔ caseFold a = caseFold b :=
  compare_eq_iff_eq

/-- A command that is found is one of the four, under its name up to case. -/
theorem init_spec {cmd : Bytes} {info : CommandInfo} (h : init.getCommandInfo cmd = some info) :
    info ∈ CommandTable.info ∧ caseFold info.cmd = caseFold cmd := by
  unfold getCommandInfo init CommandTable.info at h
  simp only [List.foldl_cons, List.foldl_nil, ExtTreeMap.getElem?_insert, compareOn_caseFold] at h
  split_ifs at h with hscan hdel hget hset
  · cases h
    exact ⟨by decide, hscan⟩
  · cases h
    exact ⟨by decide, hdel⟩
  · cases h
    exact ⟨by decide, hget⟩
  · cases h
    exact ⟨by decide, hset⟩
  · simp at h

theorem init_scan {cmd : Bytes} (h : caseFold cmd = ascii "scan") :
    init.getCommandInfo cmd = some { cmd := ascii "scan", params := -2, handler := .scan } := by
  have hname : caseFold (ascii "scan") = caseFold cmd := h.symm ▸ rfl
  unfold getCommandInfo init CommandTable.info
  simp only [List.foldl_cons, List.foldl_nil, ExtTreeMap.getElem?_insert, compareOn_caseFold, hname, if_true]

end CommandTable

end Eraft
