import ImageLedger.Text.Order

namespace ImageLedger.Schema

structure Migration where
  name : String
  tables : List String
deriving DecidableEq

/-- The steps in the order of their application. -/
def migrations : List Migration := [
  ⟨"20260310090000_create_ledger_tables", ["blocks", "transactions", "image_hashes", "node_state"]⟩,
  ⟨"20260310090100_create_pending_submissions", ["pending_submissions"]⟩,
  ⟨"20260310090200_add_merkle_proofs", ["merkle_proofs"]⟩]

/-- The groups of steps applied so far, the last one first. -/
abbrev Applied := List (List Migration)

/-- The steps that are not applied. -/
def outstanding (a : Applied) : List Migration := migrations.filter fun m => m ∉ a.flatten

/-- Applies all steps that are still open, as one group. -/
def migrate (a : Applied) : List String × Applied :=
  match outstanding a with
  | [] => ([], a)
  | steps => (steps.map (·.name), steps :: a)

/-- Undoes the last group, its last step first. -/
def rollback : Applied → List String × Applied
  | [] => ([], [])
  | steps :: rest => ((steps.map (·.name)).reverse, rest)

def tables (a : Applied) : List String := Text.sort (a.flatten.flatMap (·.tables))

end ImageLedger.Schema
