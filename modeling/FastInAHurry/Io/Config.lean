import FastInAHurry.Utils.TomlParser

/-!
# The port of the configuration

The embedding of `parse_config`, `get_market_ip` and `get_market_port` of `io/Config.hh`. The
configuration is its parser; the path is what decides which file, if any, `load` finds.

A port that is missing, no number or negative is 0. The last line converts an `int` to sixteen bits
and has no test against the largest port, so a number above it becomes another one.
-/

namespace FastInAHurry

open StdString

structure Config where
  mParser : TomlParser

namespace Config

/-- A configuration that has loaded nothing. -/
def empty : Config where
  mParser := .empty

/-- `parse_config()`, where `file` is what opening the path gives. -/
def parseConfig (c : Config) (file : Option Str) : Config × Bool :=
  let (parser, result) := c.mParser.load file
  ({ mParser := parser },
    match result with
    | .ok success => success
    | .error _ => false)

def getMarketPort (c : Config) : UInt16 :=
  match c.mParser.getValue "network".toList "port".toList with
  | none => 0
  | some opt =>
    match stoi opt with
    | .ok val => if val < 0 then 0 else UInt16.ofInt val
    | .error _ => 0

/-! ## What is stored and what is returned -/

/-- The number stored as the port, if there is one. -/
def storedPort (c : Config) : Option ℤ :=
  (c.mParser.getValue "network".toList "port".toList).bind fun opt ↦ (stoi opt).toOption

/-- A stored port is returned, and 0 where none is stored. -/
structure NeverInventsPort (c : Config) : Prop where
  stored : ∀ v, c.storedPort = some v → 0 ≤ v → v ≤ 65535 → (c.getMarketPort.toNat : ℤ) = v
  other : ¬(∃ v, c.storedPort = some v ∧ 0 ≤ v ∧ v ≤ 65535) → c.getMarketPort = 0

theorem getMarketPort_eq (c : Config) :
    c.getMarketPort =
      match c.storedPort with
      | none => 0
      | some val => if val < 0 then 0 else UInt16.ofInt val := by
  rw [getMarketPort, storedPort]
  cases c.mParser.getValue "network".toList "port".toList with
  | none => rfl
  | some opt =>
    rw [Option.bind_some]
    dsimp only
    cases stoi opt with
    | ok val => rfl
    | error e => rfl

theorem getMarketPort_of_none {c : Config} (h : c.storedPort = none) : c.getMarketPort = 0 := by
  rw [getMarketPort_eq, h]

/-- The conversion keeps the low sixteen bits. -/
theorem toNat_getMarketPort {c : Config} {v : ℤ} (h : c.storedPort = some v) :
    (c.getMarketPort.toNat : ℤ) = if v < 0 then 0 else v % 65536 := by
  rw [getMarketPort_eq, h]
  dsimp only
  split
  · rfl
  · rw [UInt16.ofInt, UInt16.toNat_ofNat']
    omega

/-- **When no port is invented.** The port returned is the one stored, or 0, exactly if the number
stored is not above the largest port or its low sixteen bits are zero. -/
theorem neverInventsPort_iff (c : Config) :
    c.NeverInventsPort ↔ ∀ v, c.storedPort = some v → 65535 < v → v % 65536 = 0 := by
  have hzero : c.getMarketPort = 0 ↔ (c.getMarketPort.toNat : ℤ) = 0 := by
    rw [← UInt16.toNat_inj, UInt16.toNat_zero, Int.natCast_eq_zero]
  constructor
  · intro h v hv hlarge
    have hport := toNat_getMarketPort hv
    rw [if_neg (by omega)] at hport
    rw [← hport, ← hzero]
    apply h.other
    rintro ⟨w, hw, -, hle⟩
    obtain rfl : v = w := Option.some.inj (hv.symm.trans hw)
    omega
  · intro h
    refine ⟨fun v hv hpos hle ↦ ?_, fun hother ↦ ?_⟩
    · rw [toNat_getMarketPort hv, if_neg (by omega)]
      omega
    · cases hstored : c.storedPort with
      | none => exact getMarketPort_of_none hstored
      | some v =>
        rw [hzero, toNat_getMarketPort hstored]
        split
        · rfl
        · -- a number that is no port is above the largest one
          have hlarge : 65535 < v := by
            by_contra hle
            exact hother ⟨v, hstored, by omega, by omega⟩
          exact h v hstored hlarge

/-- A configuration file with a port above the largest one. -/
theorem getMarketPort_invented :
    let c := (empty.parseConfig (some "[network]\nport = 70000\n".toList)).1
    c.storedPort = some 70000 ∧ c.getMarketPort = 4464 ∧ ¬c.NeverInventsPort := by
  intro c
  have hstored : c.storedPort = some 70000 := by decide +kernel
  have hport : c.getMarketPort = 4464 := by decide +kernel
  refine ⟨hstored, hport, fun h ↦ ?_⟩
  have hzero : c.getMarketPort = 0 := by
    apply h.other
    rintro ⟨v, hv, -, hle⟩
    obtain rfl : 70000 = v := Option.some.inj (hstored.symm.trans hv)
    exact absurd hle (by decide)
  rw [hport] at hzero
  exact absurd hzero (by decide)

end Config

end FastInAHurry
