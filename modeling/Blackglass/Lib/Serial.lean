import Mathlib.Order.Lattice

/-!
# Serial numbers

Rows that carry a number drawn from a counter, as `AUTOINCREMENT` draws it.  A number names
one row for ever if the counter never falls and every new row is numbered above it;
`Advance` says both of one change of the table and is closed under composition, so it says
the same of a whole run.  What a change may do to a row it keeps is the relation `keeps`.
-/

namespace Serial

variable {ρ ι : Type*} [LinearOrder ι] {serial : ρ → ι} {keeps : ρ → ρ → Prop}
  {last last' last'' : ι} {rows rows' rows'' : List ρ}

/-- The counter has not fallen, and every row is an old one, as `keeps` tells, or numbered
between the old counter and the new one. -/
structure Advance (serial : ρ → ι) (keeps : ρ → ρ → Prop) (last : ι) (rows : List ρ)
    (last' : ι) (rows' : List ρ) : Prop where
  counter : last ≤ last'
  row : ∀ r' ∈ rows', (∃ r ∈ rows, serial r = serial r' ∧ keeps r r') ∨
    (last < serial r' ∧ serial r' ≤ last')

namespace Advance

theorem of_subset (hrefl : ∀ r, keeps r r) (hcounter : last ≤ last') (hrows : rows' ⊆ rows) :
    Advance serial keeps last rows last' rows' where
  counter := hcounter
  row r hr := .inl ⟨r, hrows hr, rfl, hrefl r⟩

theorem trans (htrans : ∀ {a b c}, keeps a b → keeps b c → keeps a c)
    (h₁ : Advance serial keeps last rows last' rows')
    (h₂ : Advance serial keeps last' rows' last'' rows'') :
    Advance serial keeps last rows last'' rows'' where
  counter := h₁.counter.trans h₂.counter
  row r'' hr'' := by
    rcases h₂.row r'' hr'' with ⟨r', hr', heq', hkeeps'⟩ | ⟨hlt, hle⟩
    · rcases h₁.row r' hr' with ⟨r, hr, heq, hkeeps⟩ | ⟨hlt, hle⟩
      · exact .inl ⟨r, hr, heq.trans heq', htrans hkeeps hkeeps'⟩
      · rw [heq'] at hlt hle
        exact .inr ⟨hlt, hle.trans h₂.counter⟩
    · exact .inr ⟨lt_of_le_of_lt h₁.counter hlt, hle⟩

/-- No row gets ahead of the counter. -/
theorem bounded (h : Advance serial keeps last rows last' rows')
    (hrows : ∀ r ∈ rows, serial r ≤ last) : ∀ r' ∈ rows', serial r' ≤ last' := by
  intro r' hr'
  rcases h.row r' hr' with ⟨r, hr, heq, -⟩ | ⟨-, hle⟩
  · rw [← heq]
    exact (hrows r hr).trans h.counter
  · exact hle

/-- A row with a number that has been drawn is an old row. -/
theorem old (h : Advance serial keeps last rows last' rows') {r' : ρ} (hr' : r' ∈ rows')
    (hdrawn : serial r' ≤ last) : ∃ r ∈ rows, serial r = serial r' ∧ keeps r r' :=
  (h.row r' hr').resolve_right fun hnew => absurd hnew.1 (not_lt.mpr hdrawn)

end Advance

end Serial
