import QueryPlanner.Rule.Basic

/-!
# Simplification rules

Rules that remove what has no effect and bring limits closer to the tables: trivial filters
disappear, adjacent limits merge, a limit moves below a projection and into a table scan.
-/

namespace QueryPlanner.Rule

/-- A filter whose condition is literal `true` is its input. -/
def removeTrivialFilter : Rule :=
  .transformation "RemoveTrivialFilterRule"
    { Pattern.ofKind .filter with test := Node.isTrivialFilter } fun call => do
      match call.rel? 0 with
      | some filter =>
        match filter.inputs with
        | input :: _ => .offer input
        | [] => return
      | none => return

/-- A limit over a projection is the projection over the limit. -/
def pushLimitOverProjection : Rule :=
  .transformation "PushLimitOverProjectionRule"
    ((Pattern.ofKind .limit).withInputs [.ofKind .projection]) fun call => do
      match call.rel? 0, call.rel? 1 with
      | some limit, some projection =>
        let below ← .ofExcept (Node.make limit.operator projection.inputs limit.traits)
        .offer { projection with inputs := [below] }
      | _, _ => return

/-- Of two adjacent limits the smaller one holds. -/
def removeLimit : Rule :=
  .transformation "RemoveLimitRule"
    ((Pattern.ofKind .limit).withInputs [.ofKind .limit]) fun call =>
      match call.rel? 0, call.rel? 1 with
      | some ⟨.limit outer, _, _, _⟩, some inner =>
        match inner.operator with
        | .limit count => .offer { inner with operator := .limit (min outer count) }
        | _ => .fail .notTwoLimits
      | _, _ => .fail .notTwoLimits

/-- A limit over a table scan is a scan that stops early. -/
def pushLimitToTableScan : Rule :=
  .transformation "PushLimitToTableScanRule"
    ((Pattern.ofKind .limit).withInputs [.ofKind .tableScan]) fun call =>
      match call.rel? 0, call.rel? 1 with
      | some ⟨.limit count, _, _, _⟩, some node =>
        match node.operator with
        | .tableScan scan =>
          let limit := match scan.limit with
            | some n => min n count
            | none => count
          .offer { node with operator := .tableScan { scan with limit := some limit } }
        | _ => .fail .notLimitOverScan
      | _, _ => .fail .notLimitOverScan

/-- All simplification rules. -/
def simplifications : List Rule :=
  [removeTrivialFilter, pushLimitOverProjection, removeLimit, pushLimitToTableScan]

end QueryPlanner.Rule
