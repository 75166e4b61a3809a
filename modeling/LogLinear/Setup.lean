import LogLinear.Collector

/-!
Contract: setups, from which histograms and collectors are made.

Owns:
- the requirement, rule and ratio that hold unless others are chosen;
- the conditions on a setup, the one on the ratio before those on the requirement;
- new histograms and collectors, and histograms with counters that were kept elsewhere.

Does not own: the conditions on the requirement. `LogLinear.Layout` has them.
-/

namespace LogLinear

/-- The values from 1 to one hour in nanoseconds, to three figures. -/
def Requirement.standard : Requirement where
  lowest := 1
  highest := 3600000000000
  figures := 3
  lowest_le := by decide
  highest_le := by decide

/-- What a histogram is to be made with. -/
structure Setup where
  requirement : Requirement := .standard
  excess : Excess := .reject
  ratio : Float := 1.0

namespace Setup

/-- Whether a ratio can convert integers to a quantity and back. -/
def RatioValid (ratio : Float) : Prop := ratio.isFinite = true ∧ 0.0 < ratio

instance (ratio : Float) : Decidable (RatioValid ratio) := by
  unfold RatioValid
  infer_instance

/-- The layout that the setup asks for. The ratio has no part in it. -/
def layout (setup : Setup) : Except Fault Layout := Layout.ofRequirement setup.requirement

/-- The layout of a setup that is valid as a whole. -/
def checkedLayout (setup : Setup) : Except Fault Layout :=
  if RatioValid setup.ratio then setup.layout else .error .ratioInvalid

/-- A histogram with the rule and ratio of the setup. -/
def equip (setup : Setup) (histogram : Histogram) : Histogram :=
  { histogram with excess := setup.excess, ratio := setup.ratio }

/-- An empty histogram. -/
def histogram (setup : Setup) : Except Fault Histogram := do
  let layout ← setup.checkedLayout
  return setup.equip (Histogram.empty layout)

/-- An empty collector. -/
def collector (setup : Setup) : Except Fault Collector := do
  let layout ← setup.checkedLayout
  return { Collector.empty layout with excess := setup.excess, ratio := setup.ratio }

/-- A histogram with the given counters. -/
def histogramWith (setup : Setup) (counters : Array Nat) : Except Fault Histogram := do
  let layout ← setup.checkedLayout
  let histogram ← Histogram.ofCounters layout counters
  return setup.equip histogram

end Setup

end LogLinear
