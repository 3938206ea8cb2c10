import DBx1000.Library.BubbleSort
import DBx1000.Library.SerialOrder
import DBx1000.System.Global

/-!
# Rows and accesses under OCC

`Row_occ` with its latch, the `Access` records of a transaction and the order in which
`OptCC::per_row_validate` latches the rows.
-/

namespace DBx1000.Occ

variable {ρ V τ : Type*}

/-- A `Row_occ` with the data of its `_row`; the latch belongs to the thread that holds it. -/
structure RowOcc (V τ : Type*) where
  data : V
  wts : Nat
  latch : Option τ

namespace RowOcc

/-- `Row_occ::init`. -/
def init (data : V) : RowOcc V τ := ⟨data, 0, none⟩

/-- The body of `Row_occ::access` for an `R_REQ`, the only request that there is. -/
def access (r : RowOcc V τ) (startTs : Nat) : Option V :=
  if startTs < r.wts then none else some r.data

/-- `Row_occ::validate`. -/
def validate (r : RowOcc V τ) (ts : Nat) : Bool := if ts < r.wts then false else true

theorem access_eq_some {r : RowOcc V τ} {startTs : Nat} {data : V} :
    r.access startTs = some data ↔ r.wts ≤ startTs ∧ r.data = data := by
  unfold access
  split
  · next lt => exact iff_of_false nofun fun h => absurd lt (Nat.not_lt.mpr h.1)
  · next ge => simp [Nat.not_lt.mp ge]

theorem validate_iff {r : RowOcc V τ} {ts : Nat} : r.validate ts = true ↔ r.wts ≤ ts := by
  unfold validate
  split <;> simp <;> omega

/-- `Row_occ::write`, -/
def write (perRowValid : Bool) (r : RowOcc V τ) (data : V) (ts : Nat) : RowOcc V τ :=
  if perRowValid then { r with data := data, wts := ts } else { r with data := data }

/-- and its assertion. -/
def writeAssert (perRowValid : Bool) (r : RowOcc V τ) (ts : Nat) : Bool :=
  !perRowValid || ts > r.wts

end RowOcc

/-- An `Access`: `data` is the local copy of the row, which the transaction changes, `read`
is what the copy was when `Row_occ::access` made it. -/
structure Access (ρ V : Type*) where
  type : AccessType
  origRow : ρ
  read : V
  data : V

/-- A transaction that writes to a local copy changes neither the rows nor what was read. -/
theorem mem_modify {accesses : List (Access ρ V)} {rid : Nat} {data : V} {a : Access ρ V}
    (h : a ∈ accesses.modify rid fun a => { a with data := data }) :
    ∃ b ∈ accesses, b.origRow = a.origRow ∧ b.read = a.read := by
  induction accesses generalizing rid with
  | nil => cases rid <;> cases h
  | cons c accesses ih =>
    cases rid with
    | zero =>
      rcases List.mem_cons.mp h with rfl | h
      · exact ⟨c, List.mem_cons_self, rfl, rfl⟩
      · exact ⟨a, List.mem_cons_of_mem _ h, rfl, rfl⟩
    | succ rid =>
      rcases List.mem_cons.mp h with rfl | h
      · exact ⟨a, List.mem_cons_self, rfl, rfl⟩
      · obtain ⟨b, hb, same⟩ := ih h
        exact ⟨b, List.mem_cons_of_mem _ hb, same⟩

theorem map_origRow_modify (accesses : List (Access ρ V)) (rid : Nat) (data : V) :
    (accesses.modify rid fun a => { a with data := data }).map (·.origRow) =
      accesses.map (·.origRow) := by
  induction accesses generalizing rid with
  | nil => cases rid <;> rfl
  | cons c accesses ih =>
    cases rid with
    | zero => rfl
    | succ rid => exact congrArg (c.origRow :: ·) (ih rid)

/-- `get_table_name` and `get_primary_key`. -/
structure RowNames (ρ : Type*) where
  tableName : ρ → List UInt8
  primaryKey : ρ → Nat

/-- The comparison of neighbours in `per_row_validate`, by `strcmp` of the table names first. -/
def RowNames.later (names : RowNames ρ) (a b : Access ρ V) : Bool :=
  names.tableName b.origRow < names.tableName a.origRow ∨
    names.tableName a.origRow = names.tableName b.origRow ∧
      names.primaryKey a.origRow > names.primaryKey b.origRow

/-- What a committed transaction read and wrote. -/
def entry (time : Nat) (accesses : List (Access ρ V)) : SerialOrder.Entry ρ V where
  time := time
  reads := accesses.map fun a => (a.origRow, a.read)
  writes := (accesses.filter (·.type = .WR)).map fun a => (a.origRow, a.data)

end DBx1000.Occ
