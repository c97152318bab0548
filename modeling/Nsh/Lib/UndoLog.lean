/-!
# Undo logs

A store and a log of what its keys held before they were written.  Playing the
log back from its last record leaves each key with what its first record says,
and a key without a record as it stands.  A log may be cut in two anywhere: the
later half is played back first.
-/

namespace Nsh.UndoLog

variable {K V : Type} [BEq K]

/-- Give a key back what it held. -/
def undo (record : K × V) (store : K → V) : K → V :=
  fun key => if key == record.1 then record.2 else store key

/-- Play a log back, from its last record. -/
def replay (log : List (K × V)) (store : K → V) : K → V := log.foldr undo store

theorem replay_apply (log : List (K × V)) (store : K → V) (key : K) :
    replay log store key = (log.lookup key).getD (store key) := by
  induction log with
  | nil => rfl
  | cons record log ih =>
    show undo record (replay log store) key = _
    unfold undo
    rw [List.lookup_cons]
    cases hkey : key == record.1 with
    | true => rfl
    | false => exact ih

theorem replay_append (log log' : List (K × V)) (store : K → V) :
    replay (log ++ log') store = replay log (replay log' store) := List.foldr_append

/-- A key's first record stays its first, however the log grows. -/
theorem lookup_append_of_some {log log' : List (K × V)} {key : K} {held : V}
    (h : log.lookup key = some held) : (log ++ log').lookup key = some held := by
  rw [List.lookup_append, h, Option.some_or]

end Nsh.UndoLog
