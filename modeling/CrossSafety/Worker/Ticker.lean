/-!
# Tickers

A ticker ticks at once and then once in a period. If a tick comes late, the next one is a whole
period after it, so that missed ticks are not made up for. A small delay does not count as late.
No period is longer than thirty years. Times are in milliseconds.
-/
namespace CrossSafety

structure Ticker where
  period : Nat
  due : Nat
deriving DecidableEq

namespace Ticker

/-- The longest period: thirty years of 365 days. -/
def longest : Nat := 30 * 365 * 24 * 60 * 60 * 1000

def start (period now : Nat) : Ticker := ⟨min period longest, now⟩

/-- The delay that does not count as late. -/
def tolerance : Nat := 5

/-- The ticker after a tick at `now`, if one is due. -/
def tick? (ticker : Ticker) (now : Nat) : Option Ticker :=
  if now < ticker.due then none
  else if ticker.due + tolerance < now then some { ticker with due := now + ticker.period }
  else some { ticker with due := ticker.due + ticker.period }

end Ticker

end CrossSafety
