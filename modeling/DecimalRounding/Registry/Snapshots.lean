import DecimalRounding.Registry.Basic

/-!
# Registries with snapshots

A host may keep copies of a registry and return to them. A registry is a value, so a copy is
the registry itself, and what is registered later does not reach it. To work on several copies
in turn is to exchange the registry in use for one that is kept.
-/

namespace DecimalRounding

/-- The registry in use and the copies kept of it, the latest first. -/
structure Snapshots where
  current : Registry
  kept : List Registry

namespace Snapshots

/-- A registry in use, with no copies kept. -/
def ofRegistry (registry : Registry) : Snapshots := ⟨registry, []⟩

/-- Changes the registry in use; the copies stay. -/
def modify (snapshots : Snapshots) (change : Registry → Registry) : Snapshots :=
  { snapshots with current := change snapshots.current }

/-- Keeps a copy of the registry in use. -/
def save (snapshots : Snapshots) : Snapshots :=
  { snapshots with kept := snapshots.current :: snapshots.kept }

/-- Returns to the latest copy and gives it up; without a copy nothing changes. -/
def restore (snapshots : Snapshots) : Snapshots :=
  match snapshots.kept with
  | [] => snapshots
  | latest :: earlier => ⟨latest, earlier⟩

/-- Returns to a copy and keeps it; without such a copy nothing changes. -/
def returnTo (snapshots : Snapshots) (index : Nat) : Snapshots :=
  { snapshots with current := snapshots.kept[index]?.getD snapshots.current }

/-- Goes on with a copy and keeps the registry in use in its place; without such a copy nothing
changes. -/
def exchange (snapshots : Snapshots) (index : Nat) : Snapshots :=
  match snapshots.kept[index]? with
  | none => snapshots
  | some copy => ⟨copy, snapshots.kept.set index snapshots.current⟩

end Snapshots

end DecimalRounding
