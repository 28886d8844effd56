import PersistedQueries.CallSite.Unbound
import PersistedQueries.Table

/-!
# Merging a definition with what it depends on

The document of a call site is its own text followed by the texts of the definitions it
reaches. The definitions are visited depth first, dependencies in ascending order of their
names, each name once. A text that occurs in the document already is not added again.

- `Registry`: the known definitions by name.
- `Merge.visit`: the walk, which ends because each name of the registry is visited once.
- `merge`: the merged document of a call site.
-/

namespace PersistedQueries

/-- The known definitions by name. -/
abbrev Registry := Table String CallSite

namespace Merge

/-- A document with one more text, unless the text occurs in it. -/
def append (merged fragment : Text) : Text :=
  if Text.occursIn fragment merged then merged else merged ++ '\n' :: fragment

/-- Visit the names of a stack, the topmost first, and what they depend on. The file is the one
that is named when a definition is missing. -/
def visit (registry : Registry) (file : Option String) (visited : NameSet) (merged : Text) :
    List String → Except Unbound Text
  | [] => .ok merged
  | name :: stack =>
    if _hname : name ∈ visited then visit registry file visited merged stack
    else
      match _hsite : registry.get? name with
      | none => .error ⟨name, file, .unknown⟩
      | some site =>
        visit registry file (visited.insert name) (append merged site.source.toList)
          ((visited.insert name).lacking site.dependsOn.names ++ stack)
  termination_by stack => ((visited.lacking registry.keys).length, stack.length)
  decreasing_by
  · exact Prod.Lex.right _ (by simp)
  · exact Prod.Lex.left _ _ (NameSet.length_lacking_insert (Table.mem_keys_of_get? _hsite) _hname)

end Merge

/-- The text of a call site followed by the texts of the definitions it reaches. -/
def merge (registry : Registry) (site : CallSite) : Except Unbound Text :=
  Merge.visit registry site.file .empty site.source.toList site.dependsOn.names

end PersistedQueries
