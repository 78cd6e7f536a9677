import QueryPlanner.Proofs.Graph.Contents
import QueryPlanner.Proofs.Planner.Firing

/-!
# Ledgers

A ledger records what an operation does to the current expressions of vertices: which ones are
created, replaced and swept, and which ones are chosen for a plan. Nothing but adding, redirecting and
sweeping touches them. Whatever the operation, the ledger balances: what has come is gone or still
there; and what is gone, and only that, is reported to observers as discarded.
-/

namespace QueryPlanner

open QueryPlanner.Graph Planning

/-- Something that happens to the current expression of a vertex. -/
inductive Record where
  | created (id : VertexId) (node : Node)
  /-- Another expression has taken the place of the old one. -/
  | replaced (id : VertexId) (old new : Node)
  | swept (id : VertexId) (old : Node)
  | chosen (id : VertexId) (node : Node)

namespace Record

/-- What has become the current expression of a vertex. -/
def arrival? : Record → Option (VertexId × Node)
  | created id node => some (id, node)
  | replaced id _ new => some (id, new)
  | _ => none

/-- What is no longer the current expression of a vertex. -/
def departure? : Record → Option (VertexId × Node)
  | replaced id old _ => some (id, old)
  | swept id old => some (id, old)
  | _ => none

/-- What was taken into a plan. -/
def choice? : Record → Option (VertexId × Node)
  | chosen id node => some (id, node)
  | _ => none

/-- What observers are told. -/
def verdict? : Record → Option Event
  | created .. => none
  | replaced _ old _ => some (.discarded (old.digest .full))
  | swept _ old => some (.discarded (old.digest .full))
  | chosen _ node => some (.chosen (node.digest .full))

end Record

namespace Planner

/-- What was reported of expressions that leave the plan or stay in it, in order. -/
def verdicts (p : Planner) : List Event := p.events.toList.filter fun e => !e.isQuiet

/-- Planners with the same expressions at the same vertices, and with the same reports. -/
structure Keeps (p q : Planner) : Prop where
  settings : q.settings = p.settings
  events : q.events = p.events
  slots : q.graph.slots = p.graph.slots
  free : q.graph.free = p.graph.free

/-- The ledger of an operation that is started in some state. Whatever asks, and whatever leaves the
expressions alone, is not recorded. -/
inductive Records : {α : Type} → Planning α → Planner → List Record → Prop
  | asks {α : Type} {x : Planning α} {p : Planner} (h : Asks p.settings x) : Records x p []
  | read {α : Type} {k : Planner → Planning α} {p : Planner} {rs : List Record}
      (h : Records (k p) p rs) : Records (get >>= k) p rs
  | set {p q : Planner} (h : p.Keeps q) : Records (set q) p []
  | modify {f : Planner → Planner} {p : Planner} (h : p.Keeps (f p)) : Records (modify f) p []
  | place (node : Node) (p : Planner) : Records (place node) p
      (match p.shared? node with
        | some _ => []
        | none => [.created (p.graph.insert node (node.key p.settings.digestMode)).1 node])
  | register {p : Planner} {id : VertexId} {node : Node} (h : p.graph.current? id = some node) :
      Records (replace id node false) p []
  | replace (id : VertexId) (node : Node) (p : Planner) : Records (replace id node true) p
      ((p.graph.current? id).toList.map fun old => .replaced id old node)
  | remove {garbage : List VertexId} (hnodup : garbage.Nodup) (p : Planner) :
      Records (remove garbage) p ((p.graph.contentsOf garbage).map fun c => .swept c.1 c.2)
  | choose {p : Planner} {id : VertexId} {node : Node} (h : p.graph.current? id = some node) :
      Records (observe (.chosen (node.digest .full))) p [.chosen id node]
  | bind {α β : Type} {x : Planning α} {f : α → Planning β} {p q : Planner} {a : α}
      {rs rs' : List Record} (hx : Records x p rs) (hok : x p = .ok a q) (hf : Records (f a) q rs') :
      Records (x >>= f) p (rs ++ rs')
  | fault {α β : Type} {x : Planning α} {f : α → Planning β} {p q : Planner} {fault : Fault}
      {rs : List Record} (hx : Records x p rs) (herror : x p = .error fault q) :
      Records (x >>= f) p rs
  | isolated {body : Planning Unit} {p : Planner} {rs : List Record}
      (h : Records body { p with execution := .fresh } rs) : Records (isolated body) p rs

/-! ## The balance of a ledger -/

variable {p q r : Planner}

theorem Keeps.refl (p : Planner) : p.Keeps p := ⟨rfl, rfl, rfl, rfl⟩

/-- The ledger accounts for all that happened between two states: what has come is gone or still
there, and what is gone and what was chosen is what observers were told. -/
structure Accounts (ledger : List Record) (p q : Planner) : Prop where
  settings : q.settings = p.settings
  free : q.graph.FreeUnused
  balance : (ledger.filterMap Record.arrival? ++ p.graph.contents).Perm
    (ledger.filterMap Record.departure? ++ q.graph.contents)
  verdicts : p.settings.observed = true →
    q.verdicts = p.verdicts ++ ledger.filterMap Record.verdict?

/-- Two periods, one after the other. -/
theorem Accounts.append {rs rs' : List Record} (h : Accounts rs p q) (h' : Accounts rs' q r) :
    Accounts (rs ++ rs') p r where
  settings := h'.settings.trans h.settings
  free := h'.free
  balance := by
    rw [List.filterMap_append, List.filterMap_append, List.append_assoc, List.append_assoc]
    have hfirst := h.balance.append_left (rs'.filterMap Record.arrival?)
    have hthen := h'.balance.append_left (rs.filterMap Record.departure?)
    exact (List.perm_append_comm_assoc ..).trans
      (hfirst.trans ((List.perm_append_comm_assoc ..).trans hthen))
  verdicts hobserved := by
    rw [h'.verdicts (h.settings ▸ hobserved), h.verdicts hobserved, List.filterMap_append,
      List.append_assoc]

/-- Nothing has happened to the expressions. -/
theorem accounts_nil (hp : p.graph.FreeUnused) (hsettings : q.settings = p.settings)
    (hslots : q.graph.slots = p.graph.slots) (hfree : q.graph.free = p.graph.free)
    (hverdicts : q.verdicts = p.verdicts) : Accounts [] p q where
  settings := hsettings
  free := hp.congr (fun i => by rw [contains, contains, vertex?_congr hslots])
    (congrArg Array.size hslots) hfree
  balance := (contents_congr fun i => by rw [current?, current?, vertex?_congr hslots]).symm
  verdicts _ := by rw [hverdicts, List.filterMap_nil, List.append_nil]

theorem Keeps.accounts (h : p.Keeps q) (hp : p.graph.FreeUnused) : Accounts [] p q :=
  accounts_nil hp h.settings h.slots h.free (by rw [verdicts, verdicts, h.events])

/-! ## Reports -/

theorem verdicts_report (e : Event) (p : Planner) :
    verdicts { p with events := p.events.push e } =
      p.verdicts ++ if e.isQuiet then [] else [e] := by
  cases he : e.isQuiet <;> simp [verdicts, he]

theorem observe_eq (e : Event) (p : Planner) : observe e p =
    .ok () (if p.settings.observed then { p with events := p.events.push e } else p) := by
  show (if p.settings.observed = true then report e else pure () : Planning Unit) p = _
  split <;> rfl

/-- A report on a vertex that stays or leaves, if somebody observes the planner. -/
theorem ends_observe_verdicts {e : Event} (he : e.isQuiet = false) (p : Planner)
    (E : Fault → Planner → Prop) :
    Ends (observe e) p (fun _ q => p.Reported q ∧
      (p.settings.observed = true → q.verdicts = p.verdicts ++ [e])) E := by
  rw [ends_of_eq_ok (observe_eq e p)]
  split_ifs with hobserved
  · exact ⟨⟨_, rfl⟩, fun _ => by simp [verdicts_report, he]⟩
  · exact ⟨.refl p, fun h => absurd h hobserved⟩

end Planner

open Planner in
/-- Asking tells nothing of expressions that stay or leave. -/
theorem Planning.Asks.verdicts {α : Type} {s : Settings} {x : Planning α} (h : Asks s x) :
    ∀ p, p.settings = s → Ends x p (fun _ q => q.verdicts = p.verdicts)
      fun _ q => q.verdicts = p.verdicts := by
  induction h with
  | pure a => exact fun p _ => ends_pure.2 rfl
  | throw f => exact fun p _ => ends_throw.2 rfl
  | read _ _ ih => exact fun p hs => ends_bind.2 (ends_get.2 (ih p hs p hs))
  | log m =>
    intro p _
    refine ends_bind.2 (ends_get.2 ?_)
    split
    · exact ends_modify.2 (by simp [verdicts_report, Event.isQuiet])
    · exact ends_pure.2 rfl
  | report he _ => exact fun p _ => ends_modify.2 (by simp [verdicts_report, he])
  | @observe e he _ =>
    intro p _
    rw [ends_of_eq_ok (observe_eq e p)]
    split_ifs <;> simp [verdicts_report, he]
  | rowCount node => exact fun p _ => ends_onGraph.2 rfl
  | cumulativeCost node => exact fun p _ => ends_onGraph.2 rfl
  | @bind α β x f hx _ ihx ihf =>
    intro p hs
    have hsettings := hx.undisturbed p hs
    refine ends_bind.2 (((ihx p hs).and hsettings).mono (fun a q hq => ?_) fun _ _ hq => hq.1)
    exact (ihf a q (hq.2.settings.trans hs)).mono (fun _ _ h => h.trans hq.1)
      fun _ _ h => h.trans hq.1
  | @caught α x _ ih =>
    intro p hs
    have h := ih p hs
    unfold Ends at h
    unfold Ends Planner.caught
    cases hend : x p <;> rwa [hend] at h
  | @tryCatch α x handler hx _ ihx ihh =>
    intro p hs
    have h := (ihx p hs).and (hx.undisturbed p hs)
    show Ends (EStateM.tryCatch x handler) p _ _
    unfold Ends at h
    unfold Ends EStateM.tryCatch
    split at h
    · next hend =>
      rw [hend]
      exact h.1
    · next f q hend =>
      rw [hend]
      exact (ihh f q (h.2.settings.trans hs)).mono (fun _ _ h' => h'.trans h.1)
        fun _ _ h' => h'.trans h.1

namespace Planner

variable {id : VertexId} {node old : Node} {garbage : List VertexId}
  {E : Fault → Planner → Prop}

/-! ## What is recorded -/

theorem Undisturbed.accounts (h : p.Undisturbed q) (hp : p.graph.FreeUnused)
    (hverdicts : q.verdicts = p.verdicts) : Accounts [] p q :=
  accounts_nil hp h.settings h.graph.slots h.graph.free hverdicts

theorem accounts_created (hp : p.graph.FreeUnused) (node : Node) (key : DigestKey) (n : Nat) :
    Accounts [.created (p.graph.insert node key).1 node] p
      { p with graph := (p.graph.insert node key).2, transformations := n } where
  settings := rfl
  free := hp.insert node key
  balance := contents_insert hp node key
  verdicts _ := (List.append_nil _).symm

/-- An expression is registered once more. -/
theorem accounts_registered (hp : p.graph.FreeUnused) (hnode : p.graph.current? id = some node)
    (key : DigestKey) : Accounts [] p { p with graph := p.graph.replace id node key } where
  settings := rfl
  free := hp.replace id node key
  balance := by
    refine (contents_congr fun i => ?_).symm
    rw [current?_replace hnode]
    split_ifs with hi
    · rw [hi, hnode]
    · rfl
  verdicts _ := (List.append_nil _).symm

theorem accounts_replaced (hp : p.graph.FreeUnused) (hold : p.graph.current? id = some old)
    (node : Node) (key : DigestKey)
    (hq : Reported { p with graph := p.graph.replace id node key } q)
    (hverdicts : p.settings.observed = true →
      q.verdicts = p.verdicts ++ [.discarded (old.digest .full)]) :
    Accounts [.replaced id old node] p q := by
  obtain ⟨events, rfl⟩ := hq
  exact ⟨rfl, hp.replace id node key, contents_replace hold node key, hverdicts⟩

/-- What is reported of vertices in turn is reported of all of them. -/
theorem ends_forM_verdicts {f : VertexId → Planning PUnit} (hf : ∀ id p, Ends (f id) p (fun _ q =>
      p.Reported q ∧ (p.settings.observed = true → q.verdicts = p.verdicts ++
        (p.graph.current? id).toList.map fun n => .discarded (n.digest .full))) E)
    (ids : List VertexId) : ∀ p, Ends (ids.forM f) p (fun _ q =>
      p.Reported q ∧ (p.settings.observed = true → q.verdicts = p.verdicts ++
        (p.graph.contentsOf ids).map fun c => .discarded (c.2.digest .full))) E := by
  induction ids with
  | nil => exact fun p => ends_pure.2 ⟨.refl p, fun _ => (List.append_nil _).symm⟩
  | cons id ids ih =>
    intro p
    refine (hf id p).bind fun _ q h => (ih q).mono (fun _ r h' => ?_) fun _ _ h => h
    obtain ⟨⟨events, rfl⟩, hverdicts⟩ := h
    refine ⟨Reported.trans ⟨events, rfl⟩ h'.1, fun hobserved => ?_⟩
    rw [h'.2 hobserved, hverdicts hobserved, List.append_assoc, contentsOf_cons, List.map_append]
    cases p.graph.current? id <;> rfl

/-- The expressions of garbage are reported before it is removed. -/
theorem ends_remove_accounts (hp : p.graph.FreeUnused) (hnodup : garbage.Nodup) :
    Ends (remove garbage) p (fun _ q => Accounts
      ((p.graph.contentsOf garbage).map fun c => .swept c.1 c.2) p q) E := by
  refine ends_bind.2 ((ends_forM_verdicts (fun id p => ?_) garbage p).mono (fun _ q h => ?_)
    fun _ _ h => h)
  · refine ends_bind.2 (ends_get.2 ?_)
    cases p.graph.current? id with
    | none => exact ends_pure.2 ⟨.refl p, fun _ => (List.append_nil _).symm⟩
    | some node => exact ends_observe_verdicts rfl p E
  · obtain ⟨⟨events, rfl⟩, hverdicts⟩ := h
    have hperm := p.settings.sweepOrder_perm p.sweeps.length garbage
    refine ends_modify.2 ⟨rfl, hp.discard _ garbage, ?_, fun hobserved => ?_⟩
    · have hgone : ((p.graph.contentsOf garbage).map fun c => Record.swept c.1 c.2).filterMap
          Record.departure? = p.graph.contentsOf garbage := by
        rw [List.filterMap_map]
        exact List.filterMap_some
      have hcome : ((p.graph.contentsOf garbage).map fun c => Record.swept c.1 c.2).filterMap
          Record.arrival? = [] := by
        rw [List.filterMap_map]
        exact List.filterMap_eq_nil_iff.2 fun _ _ => rfl
      rw [hgone, hcome]
      exact (contents_discard hperm hnodup).symm
    · rw [List.filterMap_map]
      refine (hverdicts hobserved).trans (congrArg _ ?_)
      exact (congrFun List.filterMap_eq_map' _).symm

/-- Every ledger accounts for what the operation does, however it ends. -/
theorem Records.accounts {α : Type} {x : Planning α} {rs : List Record} (h : Records x p rs) :
    p.graph.FreeUnused → Ends x p (fun _ q => Accounts rs p q) fun _ q => Accounts rs p q := by
  induction h with
  | @asks α x p h =>
    intro hp
    exact (h.ends.and (h.verdicts p rfl)).mono (fun _ _ hq => hq.1.accounts hp hq.2)
      fun _ _ hq => hq.1.accounts hp hq.2
  | read _ ih => exact fun hp => ends_bind.2 (ends_get.2 (ih hp))
  | set h => exact fun hp => ends_set.2 (h.accounts hp)
  | modify h => exact fun hp => ends_modify.2 (h.accounts hp)
  | place node p =>
    intro hp
    rw [Ends, place_eq]
    cases p.shared? node with
    | some id => exact (Keeps.refl p).accounts hp
    | none => exact accounts_created hp node _ _
  | @register p id node h =>
    intro hp
    refine ends_bind.2 (ends_get.2 ?_)
    obtain ⟨v, hv, hnode⟩ := Option.map_eq_some_iff.1 h
    rw [hv]
    exact ends_bind.2 (ends_modify.2 (ends_pure.2 (accounts_registered hp h _)))
  | replace id node p =>
    intro hp
    refine ends_bind.2 (ends_get.2 ?_)
    cases hold : p.graph.vertex? id with
    | none =>
      rw [current?, hold]
      exact ends_structuralFault.2 ((Keeps.refl p).accounts hp)
    | some old =>
      have hcurrent : p.graph.current? id = some old.current := by rw [current?, hold]; rfl
      refine ends_bind.2 (ends_modify.2 ((ends_observe_verdicts rfl _ _).mono (fun _ q hq => ?_)
        fun _ _ h => h))
      rw [hcurrent]
      exact accounts_replaced hp hcurrent node _ hq.1 hq.2
  | @remove garbage hnodup p => exact fun hp => ends_remove_accounts hp hnodup
  | @choose p id node h =>
    intro hp
    refine (ends_observe_verdicts rfl p _).mono (fun _ q hq => ?_) fun _ _ h => h
    obtain ⟨⟨events, rfl⟩, hverdicts⟩ := hq
    exact ⟨rfl, hp, .refl _, hverdicts⟩
  | @bind α β x f p q a rs rs' _ hok _ ihx ihf =>
    intro hp
    have hx := (ihx hp).ok hok
    exact ends_bind.2 ((ends_of_eq_ok hok).2 ((ihf hx.free).mono (fun _ _ h => hx.append h)
      fun _ _ h => hx.append h))
  | @fault α β x f p q fault rs _ herror ih =>
    intro hp
    have hx := (ih hp).error herror
    refine ends_bind.2 ?_
    rwa [Ends, herror]
  | @isolated body p rs _ ih =>
    intro hp
    exact ends_isolated.2 ((ih hp).mono
      (fun _ _ h => ⟨h.settings, h.free, h.balance, h.verdicts⟩)
      fun _ _ h => ⟨h.settings, h.free, h.balance, h.verdicts⟩)

end Planner

end QueryPlanner
