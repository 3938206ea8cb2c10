/-!
# Enumerations of `global.h`
-/

namespace DBx1000

/-- The values of `RC` that the calls on rows return. -/
inductive RC
  | RCOK
  | Abort
  | WAIT
  deriving DecidableEq

/-- `access_t`. -/
inductive AccessType
  | RD
  | WR
  | XP
  | SCAN
  deriving DecidableEq

/-- What `access` of a row is called for under the timestamp based algorithms. -/
inductive TsType
  | R_REQ
  | W_REQ
  | P_REQ
  | XP_REQ
  deriving DecidableEq

/-- The type that `txn_man::cleanup` returns a row with. -/
def returnType (rc : RC) (type : AccessType) : AccessType :=
  if type = .WR ∧ rc = .Abort then .XP else type

theorem returnType_eq_WR {rc : RC} {type : AccessType} :
    returnType rc type = .WR ↔ type = .WR ∧ rc ≠ .Abort := by
  cases type <;> cases rc <;> decide

end DBx1000
