import Mathlib.Data.Nat.Digits.Defs
import DBx1000.Hash.Index
import DBx1000.Tpcc.NewOrder

/-!
# Customers by last name

The last names that `Lastname` puts together from three syllables, the key of the index over last
name, district and warehouse, the customers that `tpcc_wl::init_tab_cust` enters under it, and the
walk of `tpcc_txn_man::run_payment` to the customer in the middle of a chain. The syllables have
capital letters only, so a letter's offset is a number; `uint64_t` arithmetic is modulo 2^64.

## Main result

`last_name_key`: the key separates names, districts and warehouses, and with it the chains, exactly
when there is no second warehouse.

## Proof strategy

The packed letters are a number in base four with digits above three. Its residue modulo 64 is that
of the last syllable alone, and the residues of the ten syllables are at least two apart. Hence two
numbers that differ by at most one have the same last syllable, and the same number before it. With
one warehouse equal keys have packed letters which differ by at most one; with two warehouses a
difference of two is made up by the warehouse and the district.
-/

namespace DBx1000.Tpcc

open Hash IndexHash

/-- `DIST_PER_WARE`. -/
def distPerWare : Nat := 10

/-- The array `n` of `Lastname`. -/
def syllable : Fin 10 → List Char
  | 0 => ['B', 'A', 'R']
  | 1 => ['O', 'U', 'G', 'H', 'T']
  | 2 => ['A', 'B', 'L', 'E']
  | 3 => ['P', 'R', 'I']
  | 4 => ['P', 'R', 'E', 'S']
  | 5 => ['E', 'S', 'E']
  | 6 => ['A', 'N', 'T', 'I']
  | 7 => ['C', 'A', 'L', 'L', 'Y']
  | 8 => ['A', 'T', 'I', 'O', 'N']
  | 9 => ['E', 'I', 'N', 'G']

/-- `Lastname`; all its callers pass numbers below 1000. -/
def lastname (num : Fin 1000) : List Char :=
  syllable ⟨num / 100, by omega⟩ ++ syllable ⟨num / 10 % 10, by omega⟩ ++
    syllable ⟨num % 10, by omega⟩

def offset (c : Char) : Nat := c.toNat - 'A'.toNat

def custNPKey (cLast : List Char) (cDId cWId : Nat) : Nat :=
  let key := cLast.foldl (fun key c => (key <<< 2 + offset c) % 2 ^ 64) 0
  (key <<< 3 % 2 ^ 64 + (cWId * distPerWare + cDId)) % 2 ^ 64

/-- The columns of a customer's row that a payment by last name is about. -/
structure Customer where
  cId : Nat
  cDId : Nat
  cWId : Nat
  cLast : List Char

/-- `init_tab_cust`: from customer 1001 on the names are drawn. -/
def initTabCust (custPerDist : Nat) (draw : (cid : Nat) → Fin 1000) (did wid : Nat) :
    List Customer :=
  (List.range' 1 custPerDist).map fun cid =>
    { cId := cid
      cDId := did
      cWId := wid
      cLast := if small : cid ≤ 1000 then lastname ⟨cid - 1, by omega⟩ else lastname (draw cid) }

def threadInitWarehouse (custPerDist : Nat) (draw : (did cid : Nat) → Fin 1000) (wid : Nat) :
    List Customer :=
  (List.range' 1 distPerWare).flatMap fun did => initTabCust custPerDist (draw did) did wid

/-- The rows that the threads of all warehouses enter, in any order. -/
def Loaded (custPerDist numWh : Nat) (rows : List Customer) : Prop :=
  ∃ draw : (wid did cid : Nat) → Fin 1000, rows.Perm
    ((List.range' 1 numWh).flatMap fun wid => threadInitWarehouse custPerDist (draw wid) wid)

/-- The call of `index_insert` for a row. -/
def lastEntry (partCnt : Nat) (row : Customer) : Entry Customer where
  partId := whToPart partCnt row.cWId
  key := custNPKey row.cLast row.cDId row.cWId
  item := row

/-- `i_customer_last` after the rows have been entered. -/
def customerLast (partCnt bucketCnt : Nat) (rows : List Customer) : IndexHash Customer :=
  (IndexHash.init bucketCnt).insertAll (rows.map (lastEntry partCnt))

/-- The loop over `it`, with the chain from `mid` on. -/
def midpoint : (it : List Customer) → (cnt : Nat) → (mid : List Customer) → List Customer
  | [], _, mid => mid
  | _ :: it, cnt, mid => midpoint it (cnt + 1) (if (cnt + 1) % 2 = 0 then mid.tail else mid)

/-- `r_cust` of a payment by last name. -/
def paymentByLast (partCnt : Nat) (index : IndexHash Customer) (cLast : List Char)
    (cDId cWId : Nat) : Option Customer := do
  let item ← index.indexRead (custNPKey cLast cDId cWId) (whToPart partCnt cWId)
  (midpoint item 0 item).head?

/-- The districts and warehouses of the database. -/
structure InDatabase (numWh dId wId : Nat) : Prop where
  district : 1 ≤ dId ∧ dId ≤ distPerWare
  warehouse : 1 ≤ wId ∧ wId ≤ numWh

/-- The key tells customers of different names, districts or warehouses apart. -/
structure SeparatesCustomers (partCnt numWh : Nat) : Prop where
  keys : ∀ (num num' : Fin 1000) (dId dId' wId wId' : Nat), InDatabase numWh dId wId →
    InDatabase numWh dId' wId' →
    custNPKey (lastname num) dId wId = custNPKey (lastname num') dId' wId' →
    lastname num = lastname num' ∧ dId = dId' ∧ wId = wId'
  chains : ∀ (bucketCnt custPerDist : Nat) (rows : List Customer), Loaded custPerDist numWh rows →
    ∀ (num : Fin 1000) (dId wId : Nat), InDatabase numWh dId wId → ∀ items,
    (customerLast partCnt bucketCnt rows).indexRead (custNPKey (lastname num) dId wId)
      (whToPart partCnt wId) = some items →
    ∀ row ∈ items, row.cLast = lastname num ∧ row.cDId = dId ∧ row.cWId = wId

/-! ### Packed letters -/

/-- The letters as digits in base four, the last one first. -/
def packed (s : List Char) : Nat := Nat.ofDigits 4 (s.map offset).reverse

theorem packed_append (s t : List Char) : packed (s ++ t) = packed t + 4 ^ t.length * packed s := by
  simp [packed, Nat.ofDigits_append]

theorem packed_snoc (s : List Char) (c : Char) : packed (s ++ [c]) = 4 * packed s + offset c := by
  rw [packed_append, Nat.add_comm]
  simp [packed]

theorem foldl_packed (s : List Char) :
    s.foldl (fun key c => (key <<< 2 + offset c) % 2 ^ 64) 0 = packed s % 2 ^ 64 := by
  induction s using List.reverseRecOn with
  | nil => rfl
  | append_singleton s c ih =>
    rw [List.foldl_append, List.foldl_cons, List.foldl_nil, ih, packed_snoc, Nat.shiftLeft_eq]
    omega

theorem custNPKey_eq (cLast : List Char) (cDId cWId : Nat) :
    custNPKey cLast cDId cWId = (8 * packed cLast + (cWId * 10 + cDId)) % 2 ^ 64 := by
  simp only [custNPKey, foldl_packed]
  simp only [distPerWare, Nat.shiftLeft_eq]
  omega

theorem syllable_length (i : Fin 10) : 3 ≤ (syllable i).length ∧ (syllable i).length ≤ 5 := by
  revert i
  decide

/-- The residues of the syllables are at least two apart, around the circle. -/
theorem syllable_apart (i j : Fin 10)
    (near : packed (syllable i) % 64 = packed (syllable j) % 64 ∨
      (packed (syllable i) + 1) % 64 = packed (syllable j) % 64 ∨
      packed (syllable i) % 64 = (packed (syllable j) + 1) % 64) : i = j := by
  revert i j
  decide

theorem packed_syllable_le (i : Fin 10) : packed (syllable i) ≤ 5007 := by
  revert i
  decide

/-- Only the last syllable counts modulo 64. -/
theorem packed_mod (s : List Char) (i : Fin 10) :
    packed (s ++ syllable i) % 64 = packed (syllable i) % 64 := by
  obtain ⟨more, len⟩ := Nat.exists_eq_add_of_le (syllable_length i).1
  have split : 4 ^ (syllable i).length * packed s = 64 * (4 ^ more * packed s) := by
    rw [len, Nat.pow_add, Nat.mul_assoc]
  rw [packed_append, split, Nat.add_mul_mod_self_left]

/-- Packed letters that differ by at most one have the same last syllable and the same number
before it. -/
theorem packed_near {s t : List Char} {i j : Fin 10}
    (le : packed (s ++ syllable i) ≤ packed (t ++ syllable j) + 1)
    (ge : packed (t ++ syllable j) ≤ packed (s ++ syllable i) + 1) :
    i = j ∧ packed s = packed t := by
  have same : i = j := by
    apply syllable_apart
    have residue := packed_mod s i
    have residue' := packed_mod t j
    omega
  subst same
  refine ⟨rfl, ?_⟩
  rw [packed_append, packed_append] at le ge
  have wide : 4 ≤ 4 ^ (syllable i).length :=
    Nat.le_self_pow (by have := (syllable_length i).1; omega) 4
  -- numbers that differ are multiplied by four at least
  rcases Nat.lt_trichotomy (packed s) (packed t) with lt | eq | gt
  · have := Nat.mul_le_mul_left (4 ^ (syllable i).length) lt
    rw [Nat.mul_succ] at this
    omega
  · exact eq
  · have := Nat.mul_le_mul_left (4 ^ (syllable i).length) gt
    rw [Nat.mul_succ] at this
    omega

theorem lastname_near {num num' : Fin 1000}
    (le : packed (lastname num) ≤ packed (lastname num') + 1)
    (ge : packed (lastname num') ≤ packed (lastname num) + 1) : lastname num = lastname num' := by
  unfold lastname at le ge ⊢
  obtain ⟨third, pair⟩ := packed_near le ge
  obtain ⟨second, single⟩ :=
    packed_near (pair.le.trans (Nat.le_succ _)) (pair.ge.trans (Nat.le_succ _))
  -- the first syllable has nothing before it
  obtain ⟨first, _⟩ := packed_near (s := []) (t := []) (single.le.trans (Nat.le_succ _))
    (single.ge.trans (Nat.le_succ _))
  rw [first, second, third]

theorem packed_append_le (s : List Char) (i : Fin 10) :
    packed (s ++ syllable i) ≤ 5007 + 1024 * packed s := by
  rw [packed_append]
  have short : 4 ^ (syllable i).length ≤ 4 ^ 5 :=
    Nat.pow_le_pow_right (by decide) (syllable_length i).2
  exact Nat.add_le_add (packed_syllable_le i) (Nat.mul_le_mul_right _ short)

theorem packed_lastname_lt (num : Fin 1000) : packed (lastname num) < 2 ^ 33 := by
  unfold lastname
  have third := packed_append_le (syllable ⟨num / 100, by omega⟩ ++
    syllable ⟨num / 10 % 10, by omega⟩) ⟨num % 10, by omega⟩
  have second := packed_append_le (syllable ⟨num / 100, by omega⟩) ⟨num / 10 % 10, by omega⟩
  have first := packed_syllable_le ⟨num / 100, by omega⟩
  omega

/-! ### One warehouse -/

/-- With one warehouse the key has not wrapped around. -/
theorem custNPKey_one {numWh dId wId : Nat} (num : Fin 1000) (one : numWh ≤ 1)
    (inside : InDatabase numWh dId wId) :
    wId = 1 ∧ dId ≤ 10 ∧
      custNPKey (lastname num) dId wId = 8 * packed (lastname num) + (wId * 10 + dId) := by
  have wh := inside.warehouse
  have district : dId ≤ 10 := inside.district.2
  have small := packed_lastname_lt num
  refine ⟨by omega, district, ?_⟩
  rw [custNPKey_eq, Nat.mod_eq_of_lt (by omega)]

theorem keys_separate {numWh : Nat} (one : numWh ≤ 1) {num num' : Fin 1000}
    {dId dId' wId wId' : Nat} (inside : InDatabase numWh dId wId)
    (inside' : InDatabase numWh dId' wId')
    (same : custNPKey (lastname num) dId wId = custNPKey (lastname num') dId' wId') :
    lastname num = lastname num' ∧ dId = dId' ∧ wId = wId' := by
  obtain ⟨wh, le, key⟩ := custNPKey_one num one inside
  obtain ⟨wh', le', key'⟩ := custNPKey_one num' one inside'
  rw [key, key'] at same
  have positive := inside.district.1
  have positive' := inside'.district.1
  -- the districts differ by nine at most, one letter apart is eight
  have names : lastname num = lastname num' := lastname_near (by omega) (by omega)
  rw [names] at same
  exact ⟨names, by omega, by omega⟩

/-! ### What is loaded -/

/-- A row of the database: its district and warehouse are there, its name is a last name. -/
theorem Loaded.row {custPerDist numWh : Nat} {rows : List Customer}
    (loaded : Loaded custPerDist numWh rows) {row : Customer} (mem : row ∈ rows) :
    InDatabase numWh row.cDId row.cWId ∧ ∃ num, row.cLast = lastname num := by
  obtain ⟨draw, perm⟩ := loaded
  have mem := perm.mem_iff.mp mem
  simp only [threadInitWarehouse, initTabCust, List.mem_flatMap, List.mem_map,
    List.mem_range'_1] at mem
  obtain ⟨wid, wh, did, district, cid, -, rfl⟩ := mem
  have inside : InDatabase numWh did wid := ⟨⟨district.1, by omega⟩, ⟨wh.1, by omega⟩⟩
  refine ⟨inside, ?_⟩
  dsimp only
  split
  · exact ⟨_, rfl⟩
  · exact ⟨_, rfl⟩

/-- Every name, district and warehouse of the database has a row. -/
theorem Loaded.exists_row {custPerDist numWh : Nat} {rows : List Customer}
    (loaded : Loaded custPerDist numWh rows) (full : 1000 ≤ custPerDist) {dId wId : Nat}
    (inside : InDatabase numWh dId wId) (num : Fin 1000) :
    ∃ row ∈ rows, row.cLast = lastname num ∧ row.cDId = dId ∧ row.cWId = wId := by
  obtain ⟨draw, perm⟩ := loaded
  have district := inside.district
  have wh := inside.warehouse
  refine ⟨⟨num + 1, dId, wId, lastname num⟩, perm.mem_iff.mpr ?_, rfl, rfl, rfl⟩
  simp only [threadInitWarehouse, initTabCust, List.mem_flatMap, List.mem_map,
    List.mem_range'_1]
  refine ⟨wId, ⟨wh.1, by omega⟩, dId, ⟨district.1, by omega⟩, num + 1, ⟨by omega, by omega⟩, ?_⟩
  -- the first thousand customers have the names in their order
  rw [dif_pos (by omega : (num : Nat) + 1 ≤ 1000)]
  rfl

theorem mem_customerLast {partCnt bucketCnt key partId : Nat} {rows items : List Customer}
    (read : (customerLast partCnt bucketCnt rows).indexRead key partId = some items)
    (row : Customer) :
    row ∈ items ↔ row ∈ rows ∧ whToPart partCnt row.cWId = partId ∧
      custNPKey row.cLast row.cDId row.cWId = key := by
  rw [mem_of_indexRead read]
  constructor
  · rintro ⟨e, mem, placed, rfl⟩
    obtain ⟨row, entered, rfl⟩ := List.mem_map.mp mem
    exact ⟨entered, placed⟩
  · rintro ⟨mem, placed⟩
    exact ⟨lastEntry partCnt row, List.mem_map_of_mem mem, placed, rfl⟩

theorem read_customerLast (partCnt bucketCnt : Nat) {rows : List Customer} {row : Customer}
    (mem : row ∈ rows) :
    ∃ items, (customerLast partCnt bucketCnt rows).indexRead
      (custNPKey row.cLast row.cDId row.cWId) (whToPart partCnt row.cWId) = some items ∧
        row ∈ items :=
  indexRead_of_mem bucketCnt (List.mem_map_of_mem (f := lastEntry partCnt) mem)

/-! ### The walk of a payment -/

theorem midpoint_eq (it : List Customer) (cnt : Nat) (mid : List Customer) :
    midpoint it cnt mid = mid.drop ((cnt + it.length) / 2 - cnt / 2) := by
  induction it generalizing cnt mid with
  | nil => simp [midpoint]
  | cons row it ih =>
    rw [midpoint, ih, List.length_cons]
    split
    · rw [← List.drop_one, List.drop_drop]
      congr 1
      omega
    · congr 1
      omega

/-- The payment takes the middle one of the chain. -/
theorem paymentByLast_eq {partCnt : Nat} {index : IndexHash Customer} {cLast : List Char}
    {cDId cWId : Nat} {items : List Customer}
    (read : index.indexRead (custNPKey cLast cDId cWId) (whToPart partCnt cWId) = some items) :
    paymentByLast partCnt index cLast cDId cWId = items[items.length / 2]? := by
  simp [paymentByLast, read, midpoint_eq]

/-! ### The chains -/

theorem chains_separate {partCnt bucketCnt custPerDist numWh dId wId : Nat}
    {rows items : List Customer} {num : Fin 1000} (one : numWh ≤ 1)
    (loaded : Loaded custPerDist numWh rows) (inside : InDatabase numWh dId wId)
    (read : (customerLast partCnt bucketCnt rows).indexRead (custNPKey (lastname num) dId wId)
      (whToPart partCnt wId) = some items) (row : Customer) (mem : row ∈ items) :
    row.cLast = lastname num ∧ row.cDId = dId ∧ row.cWId = wId := by
  obtain ⟨entered, -, key⟩ := (mem_customerLast read row).mp mem
  obtain ⟨inside', num', name⟩ := loaded.row entered
  rw [name] at key ⊢
  exact keys_separate one inside' inside key


/-- With a second warehouse, two names that differ by two share a key. -/
theorem not_separates {partCnt numWh : Nat} (more : 2 ≤ numWh) :
    ¬ SeparatesCustomers partCnt numWh := by
  intro separates
  have key : custNPKey (lastname 43) 1 1 = custNPKey (lastname 39) 7 2 := by decide
  have inside : InDatabase numWh 1 1 := ⟨by decide, by omega⟩
  have inside' : InDatabase numWh 7 2 := ⟨by decide, by omega⟩
  have whs := (separates.keys 43 39 1 7 1 2 inside inside' key).2.2
  omega

/-- The key of the last-name index separates the customers of different names, districts and
warehouses, and every chain of the index has customers of one name, district and warehouse, just
when the database has no second warehouse. -/
theorem last_name_key (partCnt numWh : Nat) :
    SeparatesCustomers partCnt numWh ↔ numWh ≤ 1 := by
  constructor
  · intro separates
    by_contra more
    exact not_separates (Nat.lt_of_not_le more) separates
  · intro one
    refine ⟨fun num num' dId dId' wId wId' => keys_separate one, ?_⟩
    exact fun _ _ _ loaded _ _ _ inside _ read => chains_separate one loaded inside read

/-- Of two warehouses in one partition, a payment to BARPRESPRI in the first district of the first
walks a chain with BARPRIEING of the seventh district of the second. -/
theorem last_name_key_two_warehouses :
    ¬ SeparatesCustomers 1 2 ∧ custNPKey (lastname 43) 1 1 = custNPKey (lastname 39) 7 2 ∧
      lastname 43 ≠ lastname 39 ∧
      ∀ bucketCnt rows, Loaded 1000 2 rows → ∃ items,
        (customerLast 1 bucketCnt rows).indexRead (custNPKey (lastname 43) 1 1) 0 = some items ∧
        ∃ row ∈ items, row.cLast = lastname 39 ∧ row.cDId = 7 ∧ row.cWId = 2 := by
  have key : custNPKey (lastname 43) 1 1 = custNPKey (lastname 39) 7 2 := by decide
  refine ⟨not_separates (Nat.le_refl 2), key, by decide, fun bucketCnt rows loaded => ?_⟩
  have inside : InDatabase 2 7 2 := ⟨by decide, by decide⟩
  obtain ⟨row, mem, name, district, wh⟩ := loaded.exists_row (Nat.le_refl _) inside 39
  obtain ⟨items, read, found⟩ := read_customerLast 1 bucketCnt mem
  rw [name, district, wh, ← key] at read
  exact ⟨items, read, row, found, name, district, wh⟩

/-- With one warehouse a payment by last name finds a customer, and one of its name, district and
warehouse. -/
theorem payment_by_last_name {partCnt numWh bucketCnt custPerDist dId wId : Nat}
    {rows : List Customer} (one : numWh ≤ 1) (loaded : Loaded custPerDist numWh rows)
    (full : 1000 ≤ custPerDist) (inside : InDatabase numWh dId wId) (num : Fin 1000) :
    ∃ row, paymentByLast partCnt (customerLast partCnt bucketCnt rows) (lastname num) dId wId =
      some row ∧ row.cLast = lastname num ∧ row.cDId = dId ∧ row.cWId = wId := by
  obtain ⟨row, mem, name, district, wh⟩ := loaded.exists_row full inside num
  obtain ⟨items, read, found⟩ := read_customerLast partCnt bucketCnt mem
  rw [name, district, wh] at read
  -- the chain has a middle
  have middle : items.length / 2 < items.length :=
    Nat.div_lt_self (List.length_pos_of_mem found) (by decide)
  refine ⟨items[items.length / 2], ?_, ?_⟩
  · rw [paymentByLast_eq read, List.getElem?_eq_getElem middle]
  · exact chains_separate one loaded inside read _ (List.getElem_mem middle)

end DBx1000.Tpcc
