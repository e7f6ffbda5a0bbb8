import Tornet.Chunk.QueryCount

/-! The index of `db::chunk` by revenue: the arithmetic of `chunk::meta`, and the order in which it lists the records. -/
namespace Tornet.Chunk.Revenue
open QueryCount (accessInterval)

/-- `meta::price`. -/
def price (m : Meta) : Int64 :=
  (if m.size ≠ 0 then Int64.ofNat m.size.toNat else -1024 * 66) * Int64.ofNat m.distanceRank.toNat + 1024

/-- `meta::annual_query_count`, an unsigned division; `none` where it is one by zero. -/
def annualQueryCount (m : Meta) : Option Int64 :=
  if accessInterval m = 0 then none else some (365 * 24 * 60 * 60 * 1000000 / accessInterval m).toInt64

/-- `meta::annual_revenue_rate`, the key that `get_annual_rev` makes for the index. Where the product overflows the
source leaves it open; here it wraps. -/
def annualRevenueRate (m : Meta) : Option Int64 := (annualQueryCount m).map fun n => price m * n

/-- `compare_i64`. -/
def compareI64 (k₁ k₂ : Int64) : Ordering := if k₂ < k₁ then .gt else if k₁ = k₂ then .eq else .lt

/-! ### The exact values -/

def year : Nat := 365 * 24 * 60 * 60 * 1000000

/-- The clock's difference between the first and the last update, as the source takes it. -/
def elapsed (m : Meta) : Nat := (m.lastUpdate - m.firstUpdate).toNat

def exactPrice (m : Meta) : Int := (if m.size ≠ 0 then (m.size.toNat : Int) else -67584) * m.distanceRank.toNat + 1024

def exactInterval (m : Meta) : Nat :=
  if m.queryCount = 0 then 2 ^ 64 - 1 else 1 + elapsed m / m.queryCount.toNat

def exactRevenue (m : Meta) : Int := exactPrice m * (year / exactInterval m : Nat)

/-- What the arithmetic on one record should come to. -/
structure Exact (m : Meta) : Prop where
  interval : 1 ≤ accessInterval m
  divides : (annualQueryCount m).isSome = true
  fits : ∀ n, annualQueryCount m = some n →
    -2 ^ 63 ≤ (price m).toInt * n.toInt ∧ (price m).toInt * n.toInt < 2 ^ 63

/-- The arithmetic is exact on all records, and the index has them in the order of their exact revenues. -/
structure Indexed (db : ChunkDb) : Prop where
  exact : ∀ dist m, db.metas dist = some m → Exact m
  ordered : ∀ dist₁ dist₂ m₁ m₂ k₁ k₂, db.metas dist₁ = some m₁ → db.metas dist₂ = some m₂ →
    annualRevenueRate m₁ = some k₁ → annualRevenueRate m₂ = some k₂ →
      compareI64 k₁ k₂ = compare (exactRevenue m₁) (exactRevenue m₂)

def room (m : Meta) : Nat := if 0 < exactPrice m then 2 ^ 63 - 1 else 2 ^ 63

/-- The time between two queries that keeps the product within its bound, from the size and the rank. -/
def leastGap (m : Meta) : Nat := year / (room m / (exactPrice m).natAbs + 1)

/-- No query was counted yet, or the queries are far enough apart and the clock is not one microsecond behind at the
first that was. -/
def Spaced (m : Meta) : Prop :=
  m.queryCount = 0 ∨
    leastGap m * m.queryCount.toNat ≤ elapsed m ∧ ¬ (m.queryCount = 1 ∧ m.lastUpdate + 1 = m.firstUpdate)

/-! ### The price -/

theorem bmod_of_fits {x : Int} (hlow : -2 ^ 63 ≤ x) (hhigh : x < 2 ^ 63) : x.bmod (2 ^ 64) = x :=
  Int.bmod_eq_of_le (by omega) (by omega)

private theorem exactPrice_bounds (m : Meta) : -(67584 * 255) ≤ exactPrice m ∧ exactPrice m ≤ 2 ^ 32 * 255 + 1024 := by
  have hrank : m.distanceRank.toNat ≤ 255 := Nat.le_of_lt_succ m.distanceRank.toNat_lt
  have hsize : m.size.toNat < 2 ^ 32 := m.size.toNat_lt
  rw [exactPrice]
  split_ifs
  · have hprod : m.size.toNat * m.distanceRank.toNat ≤ 2 ^ 32 * 255 := Nat.mul_le_mul hsize.le hrank
    constructor <;> omega
  · constructor <;> omega

theorem toInt_price (m : Meta) : (price m).toInt = exactPrice m := by
  have hrank : m.distanceRank.toNat < 256 := m.distanceRank.toNat_lt
  have hsize : m.size.toNat < 2 ^ 32 := m.size.toNat_lt
  have hbounds := exactPrice_bounds m
  have hr : (Int64.ofNat m.distanceRank.toNat).toInt = m.distanceRank.toNat := Int64.toInt_ofNat_of_lt (by omega)
  have hs : (if m.size ≠ 0 then Int64.ofNat m.size.toNat else -1024 * 66 : Int64).toInt =
      if m.size ≠ 0 then (m.size.toNat : Int) else -67584 := by
    split_ifs
    · exact Int64.toInt_ofNat_of_lt (by omega)
    · rfl
  rw [exactPrice] at hbounds ⊢
  have hprod : ((if m.size ≠ 0 then (m.size.toNat : Int) else -67584) * m.distanceRank.toNat).bmod (2 ^ 64) =
      (if m.size ≠ 0 then (m.size.toNat : Int) else -67584) * m.distanceRank.toNat :=
    bmod_of_fits (by omega) (by omega)
  rw [price, Int64.toInt_add, Int64.toInt_mul, hr, hs, hprod, show (1024 : Int64).toInt = 1024 from rfl]
  exact bmod_of_fits (by omega) (by omega)

private theorem exactPrice_ne_zero (m : Meta) : exactPrice m ≠ 0 := by
  rw [exactPrice]
  split_ifs
  · have : 0 ≤ (m.size.toNat : Int) * m.distanceRank.toNat := by positivity
    omega
  · omega

/-! ### The interval -/

private theorem elapsed_lt (m : Meta) : elapsed m < 2 ^ 64 := UInt64.toNat_lt _

theorem elapsed_max_iff (m : Meta) : elapsed m + 1 = 2 ^ 64 ↔ m.lastUpdate + 1 = m.firstUpdate := by
  have hfirst := m.firstUpdate.toNat_lt
  have hlast := m.lastUpdate.toNat_lt
  rw [← UInt64.toNat_inj, elapsed, UInt64.toNat_sub, UInt64.toNat_add, UInt64.toNat_one]
  omega

private theorem toNat_accessInterval (m : Meta) : (accessInterval m).toNat = exactInterval m % 2 ^ 64 := by
  rw [accessInterval, exactInterval]
  split_ifs with hcount
  · rfl
  · rw [UInt64.toNat_add, UInt64.toNat_div]
    rfl

theorem exactInterval_pos (m : Meta) : 1 ≤ exactInterval m := by
  rw [exactInterval]
  split_ifs
  · decide
  · exact Nat.le_add_right 1 _

/-- One is added to the interval, and only the longest after a single query has no room for it. -/
theorem exactInterval_lt_iff (m : Meta) :
    exactInterval m < 2 ^ 64 ↔ ¬ (m.queryCount = 1 ∧ m.lastUpdate + 1 = m.firstUpdate) := by
  have helapsed := elapsed_lt m
  rw [exactInterval, ← elapsed_max_iff]
  by_cases hzero : m.queryCount = 0
  · simp [hzero]
  rw [if_neg hzero]
  by_cases hone : m.queryCount = 1
  · rw [hone, UInt64.toNat_one, Nat.div_one, and_iff_right rfl]
    omega
  · have htwo : 2 ≤ m.queryCount.toNat := by
      rw [← UInt64.toNat_inj, UInt64.toNat_zero] at hzero
      rw [← UInt64.toNat_inj, UInt64.toNat_one] at hone
      omega
    have hhalf : elapsed m / m.queryCount.toNat ≤ elapsed m / 2 := Nat.div_le_div_left htwo (by decide)
    exact iff_of_true (by omega) fun h => hone h.1

/-! ### The queries of a year -/

theorem accessInterval_pos_iff (m : Meta) : 1 ≤ accessInterval m ↔ exactInterval m < 2 ^ 64 := by
  have hpos := exactInterval_pos m
  have hle : exactInterval m ≤ 2 ^ 64 := by
    have hdiv : elapsed m / m.queryCount.toNat ≤ elapsed m := Nat.div_le_self _ _
    have helapsed := elapsed_lt m
    rw [exactInterval]
    split_ifs <;> omega
  rw [UInt64.le_iff_toNat_le, toNat_accessInterval, UInt64.toNat_one]
  omega

/-- Only an interval of zero is not divided by, and the quotient is exact. -/
theorem annualQueryCount_eq {m : Meta} (h : exactInterval m < 2 ^ 64) :
    ∃ n, annualQueryCount m = some n ∧ n.toInt = (year / exactInterval m : Nat) := by
  have hinterval : (accessInterval m).toNat = exactInterval m := by
    rw [toNat_accessInterval, Nat.mod_eq_of_lt h]
  have hne : accessInterval m ≠ 0 := by
    rw [ne_eq, ← UInt64.toNat_inj, hinterval, UInt64.toNat_zero]
    exact Nat.one_le_iff_ne_zero.mp (exactInterval_pos m)
  refine ⟨_, if_neg hne, ?_⟩
  have hquot : (365 * 24 * 60 * 60 * 1000000 / accessInterval m).toNat = year / exactInterval m := by
    rw [UInt64.toNat_div, hinterval]
    rfl
  have hsmall : year / exactInterval m < 2 ^ 63 := (Nat.div_le_self _ _).trans_lt (by decide)
  rw [← UInt64.ofNat_toNat (x := 365 * 24 * 60 * 60 * 1000000 / accessInterval m), hquot, UInt64.toInt64_ofNat']
  exact Int64.toInt_ofNat_of_lt hsmall

/-! ### The product -/

theorem fits_iff {p : Int} (hp : p ≠ 0) (n : Nat) :
    -2 ^ 63 ≤ p * n ∧ p * n < 2 ^ 63 ↔ p.natAbs * n ≤ if 0 < p then 2 ^ 63 - 1 else 2 ^ 63 := by
  have hcast : ((p.natAbs * n : Nat) : Int) = p.natAbs * n := Int.natCast_mul _ _
  rcases lt_or_gt_of_ne hp with hneg | hpos
  · have habs : (p.natAbs : Int) * n = -(p * n) := by rw [Int.ofNat_natAbs_of_nonpos hneg.le, Int.neg_mul]
    rw [if_neg hneg.not_gt]
    have hnonneg : 0 ≤ (p.natAbs : Int) * n := by positivity
    omega
  · have habs : (p.natAbs : Int) * n = p * n := by rw [Int.natAbs_of_nonneg hpos.le]
    rw [if_pos hpos]
    have hnonneg : 0 ≤ (p.natAbs : Int) * n := by positivity
    omega

/-- A quotient that is multiplied stays below a bound where the divisor is large enough. -/
theorem mul_div_le_iff {p e : Nat} (hp : 0 < p) (he : 0 < e) (y r : Nat) :
    p * (y / e) ≤ r ↔ y / (r / p + 1) < e := by
  calc p * (y / e) ≤ r ↔ y / e ≤ r / p := by rw [Nat.le_div_iff_mul_le hp, Nat.mul_comm]
    _ ↔ y / e < r / p + 1 := Nat.lt_succ_iff.symm
    _ ↔ y < (r / p + 1) * e := Nat.div_lt_iff_lt_mul he
    _ ↔ y / (r / p + 1) < e := by rw [Nat.div_lt_iff_lt_mul (Nat.succ_pos _), Nat.mul_comm]

theorem revenue_fits_iff (m : Meta) :
    -2 ^ 63 ≤ exactRevenue m ∧ exactRevenue m < 2 ^ 63 ↔ leastGap m < exactInterval m := by
  rw [exactRevenue, fits_iff (exactPrice_ne_zero m), leastGap, ← room]
  exact mul_div_le_iff (Int.natAbs_pos.mpr (exactPrice_ne_zero m)) (exactInterval_pos m) _ _

/-- The condition in terms of the interval: it does not wrap, and it is longer than the least gap. -/
theorem spaced_iff (m : Meta) : Spaced m ↔ exactInterval m < 2 ^ 64 ∧ leastGap m < exactInterval m := by
  rw [exactInterval_lt_iff, exactInterval, Spaced]
  by_cases hzero : m.queryCount = 0
  · have hgap : leastGap m ≤ year := Nat.div_le_self _ _
    have hyear : year < 2 ^ 64 - 1 := by decide
    rw [if_pos hzero, hzero]
    exact iff_of_true (.inl rfl) ⟨fun h => absurd h.1 (by decide), hgap.trans_lt hyear⟩
  · have hcount : 0 < m.queryCount.toNat := by
      rw [← UInt64.toNat_inj, UInt64.toNat_zero] at hzero
      omega
    rw [if_neg hzero, or_iff_right hzero, and_comm, Nat.lt_one_add_iff, Nat.le_div_iff_mul_le hcount]

/-- What is required of the arithmetic holds exactly if the queries of the chunk are spaced. -/
theorem exact_iff (m : Meta) : Exact m ↔ Spaced m := by
  rw [spaced_iff, ← revenue_fits_iff, ← accessInterval_pos_iff]
  constructor
  · intro h
    obtain ⟨n, hn, hvalue⟩ := annualQueryCount_eq ((accessInterval_pos_iff m).mp h.interval)
    have hfits := h.fits n hn
    rw [toInt_price, hvalue] at hfits
    exact ⟨h.interval, hfits⟩
  · rintro ⟨hinterval, hfits⟩
    obtain ⟨n, hn, hvalue⟩ := annualQueryCount_eq ((accessInterval_pos_iff m).mp hinterval)
    refine ⟨hinterval, by rw [hn]; rfl, fun n' hn' => ?_⟩
    obtain rfl : n = n' := Option.some.inj (hn.symm.trans hn')
    rw [toInt_price, hvalue]
    exact hfits

/-! ### The index -/

/-- The key of a record is its exact revenue. -/
theorem toInt_annualRevenueRate {m : Meta} (h : Exact m) {k : Int64} (hk : annualRevenueRate m = some k) :
    k.toInt = exactRevenue m := by
  obtain ⟨n, hn, hvalue⟩ := annualQueryCount_eq ((accessInterval_pos_iff m).mp h.interval)
  have hfits := h.fits n hn
  rw [annualRevenueRate, hn] at hk
  obtain rfl := Option.some.inj hk
  rw [Int64.toInt_mul, bmod_of_fits hfits.1 hfits.2, toInt_price, hvalue, exactRevenue]

theorem compareI64_eq (k₁ k₂ : Int64) : compareI64 k₁ k₂ = compare k₁.toInt k₂.toInt := by
  simp only [compareI64, Int64.lt_iff_toInt_lt, ← Int64.toInt_inj]
  rcases lt_trichotomy k₁.toInt k₂.toInt with hlt | heq | hgt
  · rw [if_neg hlt.not_gt, if_neg hlt.ne, compare_lt_iff_lt.mpr hlt]
  · rw [if_neg heq.not_gt, if_pos heq, compare_eq_iff_eq.mpr heq]
  · rw [if_pos hgt, compare_gt_iff_gt.mpr hgt]

/-- The arithmetic is exact on all records, and the index lists them by their exact revenues, if and only if each of
them was queried slowly enough for its size and rank. -/
theorem revenue_index_iff (db : ChunkDb) : Indexed db ↔ ∀ dist m, db.metas dist = some m → Spaced m := by
  constructor
  · intro h dist m hm
    exact (exact_iff m).mp (h.exact dist m hm)
  · intro h
    have hexact : ∀ dist m, db.metas dist = some m → Exact m := fun dist m hm => (exact_iff m).mpr (h dist m hm)
    refine ⟨hexact, fun dist₁ dist₂ m₁ m₂ k₁ k₂ h₁ h₂ hk₁ hk₂ => ?_⟩
    rw [compareI64_eq, toInt_annualRevenueRate (hexact _ _ h₁) hk₁, toInt_annualRevenueRate (hexact _ _ h₂) hk₂]

/-- The database of a new node after queries for chunks, each with the reading of the clock. -/
def queried (calls : List (UInt64 × Sha1)) : ChunkDb :=
  calls.foldl (fun db c => db.recorded c.1 c.2) { nodeId := 0 }

/-- Two queries within a microsecond overflow the product. A clock that is one microsecond behind at the second query
makes the source divide by zero. -/
theorem queried_at_once : ¬ Indexed (queried [(5, 1), (5, 1)]) ∧ ¬ Indexed (queried [(5, 1), (4, 1)]) := by
  constructor
  · intro h
    have hfits := (h.exact 1 ⟨5, 5, 1, 0, 160⟩ (by decide +kernel)).fits 31536000000000 (by decide +kernel)
    exact absurd hfits (by decide +kernel)
  · intro h
    have hdivides := (h.exact 1 ⟨5, 4, 1, 0, 160⟩ (by decide +kernel)).divides
    exact absurd hdivides (by decide +kernel)

end Tornet.Chunk.Revenue
