import Mathlib.Logic.Function.Basic

namespace Library

variable {κ ν : Type*} {cache lookup wider : κ → Option ν} {k : κ} {v : ν}

/-- Everything in the cache is what the lookup answers. -/
def Sound (cache lookup : κ → Option ν) : Prop := ∀ k v, cache k = some v → lookup k = some v

theorem Sound.empty : Sound (fun _ => none) lookup := by
  intro k v cached
  cases cached

/-- Entries may go from a sound cache, and the lookup may learn new answers. -/
theorem Sound.trans (sound : Sound cache lookup) (grown : Sound lookup wider) : Sound cache wider :=
  fun k v cached => grown k v (sound k v cached)

variable [DecidableEq κ]

theorem Sound.fill (sound : Sound cache lookup) (answer : lookup k = some v) :
    Sound (Function.update cache k (some v)) lookup := by
  intro j w cached
  by_cases same : j = k
  · subst same
    rw [Function.update_self, Option.some.injEq] at cached
    rw [answer, cached]
  · rw [Function.update_of_ne same] at cached
    exact sound j w cached

theorem Sound.evict (sound : Sound cache lookup) (k : κ) : Sound (Function.update cache k none) lookup := by
  intro j w cached
  by_cases same : j = k
  · subst same
    rw [Function.update_self] at cached
    cases cached
  · rw [Function.update_of_ne same] at cached
    exact sound j w cached

end Library
