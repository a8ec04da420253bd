import ClassRenaming.Proofs.Labels
import ClassRenaming.Proofs.NamesInStates
import ClassRenaming.Proofs.ProperRenaming
import ClassRenaming.Proofs.RecomputedBodies

/-!
What recomputing frames leaves of a class: bodies that can be read back stay so, and a site that was
not there before is the name of a class that the body, the class or the hierarchy names.
-/

namespace ClassRenaming

def BringsNames (good : String → Prop) (before after : List Site) : Prop :=
  ∀ site ∈ after, site ∈ before ∨ ∃ name, site = .binary name ∧ good name

section Frames

variable {good : String → Prop}

abbrev Frame.Named (good : String → Prop) (frame : Frame) : Prop :=
  ∀ type ∈ frame.kind.types, type.Named good

theorem types_compress (previous locals stack : List VerificationType) :
    (FrameKind.compress previous locals stack).types ⊆ locals ++ stack := by
  unfold FrameKind.compress
  split
  · split
    · exact List.nil_subset _
    · split
      · exact List.nil_subset _
      · split
        · exact fun type member => List.mem_append_left _ (List.mem_of_mem_drop member)
        · exact List.Subset.refl _
  · split
    · exact List.subset_append_right _ _
    · exact List.Subset.refl _
  · exact List.Subset.refl _

theorem entries_sublist (slots : List VerificationType) :
    (FrameState.entries slots).Sublist slots := by
  induction slots using FrameState.entries.induct with
  | case1 => exact .slnil
  | case2 type => exact List.Sublist.refl _
  | case3 type next rest wide ih =>
    rw [FrameState.entries, if_pos wide]
    exact (ih.cons next).cons_cons type
  | case4 type next rest narrow ih =>
    rw [FrameState.entries, if_neg narrow]
    exact ih.cons_cons type

theorem Span.named_frame {state : FrameState} (named : state.Named good)
    (previous : List VerificationType) (offset : Nat) :
    (Span.frame previous offset state).Named good := by
  intro type member
  rcases List.mem_append.1 (types_compress _ _ _ member) with local_ | stacked
  · refine named.locals type ?_
    have listed : type ∈ ((FrameState.entries state.locals).reverse.dropWhile
        (· == VerificationType.top)).reverse := local_
    have shorter := (List.dropWhile_sublist _).subset (List.mem_reverse.1 listed)
    exact (entries_sublist _).subset (List.mem_reverse.1 shorter)
  · exact named.stack type (List.mem_reverse.1 ((entries_sublist _).subset stacked))

theorem Span.named_frames (closed : ClosedNames good) (marked : Nat → Bool) (inDead : Bool)
    (previous : List VerificationType) {spans : List Span}
    (named : ∀ span ∈ spans, ∀ state ∈ span.state, state.Named good) :
    ∀ frame ∈ Span.frames marked inDead previous spans, frame.Named good := by
  have dead : Span.deadState.Named good := by
    refine ⟨by simp [Span.deadState], fun type member => ?_⟩
    rw [List.mem_singleton.1 member]
    exact closed.fixed _ (by simp [fixedNames, throwableName])
  induction spans generalizing inDead previous with
  | nil => simp [Span.frames]
  | cons span rest ih =>
    rw [List.forall_mem_cons] at named
    rw [Span.frames]
    split
    · next state known =>
      split
      · have here := Span.named_frame (named.1 state known) previous span.placed.offset
        exact List.forall_mem_cons.2 ⟨here, ih _ _ named.2⟩
      · exact ih _ _ named.2
    · split
      · exact ih _ _ named.2
      · exact List.forall_mem_cons.2 ⟨Span.named_frame dead _ _, ih _ _ named.2⟩

end Frames

section Bodies

variable {good : String → Prop}

theorem BringsNames.of_subset {before after : List Site} (inside : after ⊆ before) :
    BringsNames good before after := fun _ member => .inl (inside member)

theorem BringsNames.append {before after left right : List Site}
    (front : BringsNames good before after) (back : BringsNames good left right) :
    BringsNames good (before ++ left) (after ++ right) := by
  intro site member
  rcases List.mem_append.1 member with here | there
  · exact (front site here).imp_left (List.mem_append_left _)
  · exact (back site there).imp_left (List.mem_append_right _)

theorem BringsNames.flatMap {α : Type} {sites : α → List Site} {items others : List α}
    (each : ∀ other ∈ others, (∃ item ∈ items, BringsNames good (sites item) (sites other)) ∨
      BringsNames good [] (sites other)) :
    BringsNames good (items.flatMap sites) (others.flatMap sites) := by
  intro site member
  obtain ⟨other, listed, inside⟩ := List.mem_flatMap.1 member
  rcases each other listed with ⟨item, there, brings⟩ | brings
  · exact (brings site inside).imp_left fun old => List.mem_flatMap.2 ⟨item, there, old⟩
  · exact (brings site inside).imp_left fun outside => by cases outside

theorem Handler.catchType_carve (dead : List (Nat × Nat)) {handler piece : Handler}
    (member : piece ∈ handler.carve dead) : piece.catchType = handler.catchType := by
  have each (pieces : List Handler) (all : ∀ other ∈ pieces, other.catchType = handler.catchType) :
      ∀ other ∈ dead.foldl (fun pieces range => pieces.flatMap (Handler.without range)) pieces,
        other.catchType = handler.catchType := by
    clear member
    induction dead generalizing pieces with
    | nil => exact all
    | cons range rest ih =>
      refine ih _ fun other listed => ?_
      obtain ⟨old, inside, cut⟩ := List.mem_flatMap.1 listed
      rw [← all old inside]
      rcases List.mem_pair.1 (List.mem_filter.1 cut).1 with rfl | rfl <;> rfl
  exact each [handler] (by simp) piece member

theorem TypeAnnotation.value_of_moveCatch? {moved : List (Option Nat)} {item kept : TypeAnnotation}
    (left : item.moveCatch? moved = some kept) : kept.value = item.value := by
  unfold TypeAnnotation.moveCatch? at left
  split at left
  · split at left
    · split at left <;> cases left
      rfl
    · cases left
  · cases left
    rfl

theorem CodeAttribute.sites_moveCatch (moved : List (Option Nat)) (item : CodeAttribute) :
    (item.moveCatch moved).sites ⊆ item.sites := by
  cases item with
  | typeAnnotations visibility annotations =>
    intro site member
    obtain ⟨kept, listed, inside⟩ := List.mem_flatMap.1 member
    obtain ⟨old, there, left⟩ := List.mem_filterMap.1 listed
    refine List.mem_flatMap.2 ⟨old, there, ?_⟩
    have same := TypeAnnotation.value_of_moveCatch? left
    unfold TypeAnnotation.sites at inside ⊢
    rwa [same] at inside
  | _ => exact List.Subset.refl _

theorem Span.state_mem {code : Code} {states : Array (Option FrameState)} {span : Span}
    (member : span ∈ Span.ofCode code states) : span.state ∈ states.toList := by
  obtain ⟨⟨ends, state⟩, listed, rfl⟩ := List.mem_map.1 member
  exact (List.of_mem_zip listed).2

theorem Flow.Named.of_span {size : Nat} {flow : Flow} (named : flow.Named good size) {code : Code} :
    ∀ span ∈ Span.ofCode code flow.states, ∀ state ∈ span.state, state.Named good := by
  intro span member state known
  have listed := Span.state_mem member
  rw [Option.mem_def.1 known] at listed
  obtain ⟨position, inside, at_⟩ := List.getElem_of_mem listed
  refine named.states position state ?_
  rw [Flow.stateAt?, ← Array.getElem?_toList, List.getElem?_eq_getElem inside, at_]
  rfl

theorem Code.brings_withFlow (closed : ClosedNames good) {code result : Code} {major : UInt16}
    {entry : FrameState} {flow : Flow} {size : Nat} (named : flow.Named good size)
    (done : code.withFlow major entry flow = .ok result) :
    BringsNames good code.sites result.sites := by
  obtain ⟨maxStack, maxLocals, rfl⟩ := Code.eq_of_withFlow done
  refine .append (.append ?_ ?_) ?_
  · refine .flatMap fun placed member => ?_
    rcases Code.mem_replaceDead_ofCode member with old | nop | athrow
    · exact .inl ⟨placed, old, .of_subset (List.Subset.refl _)⟩
    · exact .inr (.of_subset (by rw [nop]; exact List.Subset.refl _))
    · exact .inr (.of_subset (by rw [athrow]; exact List.Subset.refl _))
  · refine .flatMap fun piece member => .inl ?_
    change piece ∈ (code.carveHandlers _).handlers at member
    rw [Code.handlers_carveHandlers] at member
    obtain ⟨handler, listed, cut⟩ := List.mem_flatMap.1 member
    refine ⟨handler, listed, .of_subset ?_⟩
    rw [Handler.catchType_carve _ cut]
    exact List.Subset.refl _
  · refine .flatMap fun item member => ?_
    rcases Code.mem_replaceIn member with rfl | listed
    · refine .inr fun site found => .inr ?_
      obtain ⟨frame, there, inside⟩ := List.mem_flatMap.1 found
      obtain ⟨type, typed, here⟩ := List.mem_flatMap.1 inside
      have frameNamed : frame.Named good := by
        split at there
        · exact Span.named_frames closed _ _ _ named.of_span frame there
        · cases there
      have typeNamed := frameNamed type typed
      cases type with
      | object name =>
        rw [List.mem_singleton.1 here]
        exact ⟨name, rfl, typeNamed⟩
      | _ => cases here
    · refine .inl ?_
      unfold Code.carveHandlers at listed
      dsimp only at listed
      split at listed
      · exact ⟨item, listed, .of_subset (List.Subset.refl _)⟩
      · obtain ⟨old, there, rfl⟩ := List.mem_map.1 listed
        exact ⟨old, there, .of_subset (CodeAttribute.sites_moveCatch _ old)⟩

end Bodies

/-! Labels: those of dead code go with it. -/

section Labels

theorem Span.placed_sublist (code : Code) (states : Array (Option FrameState)) :
    ((Span.ofCode code states).map Span.placed).Sublist code.instructions := by
  have instructions := map_fst_zip_sublist code.instructions code.ends
  have kept := ((map_fst_zip_sublist code.spans states.toList).map Prod.fst).trans instructions
  rw [List.map_map] at kept
  rw [Span.ofCode, List.map_map]
  exact kept

theorem Span.labels_replaceDead (spans : List Span) :
    ((replaceDead spans).flatMap (·.instruction.labels)).Sublist
      ((spans.map Span.placed).flatMap (·.instruction.labels)) := by
  induction spans with
  | nil => exact List.Sublist.refl _
  | cons span rest ih =>
    rw [List.map_cons, List.flatMap_cons, replaceDead]
    split
    · have nops (offsets : List Nat) : (offsets.map (simpleAt Opcode.nop)).flatMap
          (·.instruction.labels) = [] := by
        rw [List.flatMap_map, List.flatMap_eq_nil_iff]
        exact fun offset _ => rfl
      rw [List.flatMap_append, nops, List.nil_append, List.flatMap_cons]
      exact ih.trans (List.sublist_append_right _ _)
    · rw [List.flatMap_cons]
      exact (List.Sublist.refl _).append ih

theorem Code.flatMap_replaceIn {α : Type} {parts : CodeAttribute → List α}
    (silent : ∀ frames, parts (.stackMap frames) = []) (frames : List Frame)
    (attributes : List CodeAttribute) :
    (setStackMap.replaceIn frames attributes).flatMap parts = attributes.flatMap parts := by
  have table : (setStackMap.table frames).flatMap parts = [] := by
    unfold setStackMap.table
    split
    · rfl
    · rw [List.flatMap_singleton, silent]
  unfold setStackMap.replaceIn
  dsimp only
  induction attributes with
  | nil => simpa using table
  | cons item rest ih =>
    cases item with
    | stackMap old => simp [table, silent]
    | _ =>
      simp only [List.any_cons, Bool.false_or, Bool.not_false, List.takeWhile_cons_of_pos,
        List.dropWhile_cons_of_pos] at ih ⊢
      split at ih
      · next more =>
        rw [if_pos more, List.cons_append, List.cons_append, List.flatMap_cons, ih,
          List.flatMap_cons]
      · next absent => rw [if_neg absent, List.flatMap_append, table, List.nil_append]

theorem flatMap_filterMap_sublist {α β γ : Type} {f : α → Option β} {parts : α → List γ}
    {others : β → List γ} (each : ∀ item kept, f item = some kept → others kept = parts item)
    (items : List α) : ((items.filterMap f).flatMap others).Sublist (items.flatMap parts) := by
  induction items with
  | nil => exact List.Sublist.refl _
  | cons item rest ih =>
    rw [List.filterMap_cons, List.flatMap_cons]
    split
    · exact ih.trans (List.sublist_append_right _ _)
    · next kept found =>
      rw [List.flatMap_cons, each item kept found]
      exact (List.Sublist.refl _).append ih

theorem CodeAttribute.labels_moveCatch (moved : List (Option Nat)) (item : CodeAttribute) :
    (item.moveCatch moved).labels.Sublist item.labels := by
  cases item with
  | typeAnnotations visibility annotations =>
    apply flatMap_filterMap_sublist
    intro old kept left
    have same := TypeAnnotation.value_of_moveCatch? left
    unfold TypeAnnotation.labels
    rw [same]
  | _ => exact List.Sublist.refl _

theorem Code.labels_withFlow {code result : Code} {major : UInt16} {entry : FrameState} {flow : Flow}
    (done : code.withFlow major entry flow = .ok result) : result.labels.Sublist code.labels := by
  obtain ⟨maxStack, maxLocals, rfl⟩ := Code.eq_of_withFlow done
  apply List.Sublist.append
  · exact (Span.labels_replaceDead _).trans ((Span.placed_sublist code flow.states).flatMap _)
  · dsimp only [Code.setStackMap]
    rw [Code.flatMap_replaceIn fun _ => rfl]
    unfold Code.carveHandlers
    dsimp only
    split
    · exact List.Sublist.refl _
    · rw [List.flatMap_map]
      exact List.Sublist.flatMap_right _ fun item _ => CodeAttribute.labels_moveCatch _ item

theorem CodeAttribute.lasting_moveCatch (moved : List (Option Nat)) (item : CodeAttribute) :
    (item.moveCatch moved).lasting = item.lasting := by
  cases item <;> rfl

theorem Code.lasting_withFlow {code result : Code} {major : UInt16} {entry : FrameState} {flow : Flow}
    (done : code.withFlow major entry flow = .ok result) :
    result.attributes.flatMap CodeAttribute.lasting =
      code.attributes.flatMap CodeAttribute.lasting := by
  obtain ⟨maxStack, maxLocals, rfl⟩ := Code.eq_of_withFlow done
  refine (Code.flatMap_replaceIn (fun _ => rfl) _ _).trans ?_
  unfold Code.carveHandlers
  dsimp only
  split
  · rfl
  · simp only [List.flatMap_map, CodeAttribute.lasting_moveCatch]

end Labels

/-! Methods, with what is remembered along the way. -/

def Hierarchy.Declares (hierarchy : Hierarchy) (good : String → Prop) (cache : MetadataCache) :
    Prop := ∀ name, (hierarchy.view cache name).Named good

def Preserves {α : Type} (hierarchy : Hierarchy) (good : String → Prop) (action : Resolving α)
    (result : α → Prop) : Prop :=
  ∀ cache, hierarchy.Declares good cache →
    result (action cache).1 ∧ hierarchy.Declares good (action cache).2

namespace Preserves

variable {α β : Type} {hierarchy : Hierarchy} {good : String → Prop}

theorem pure {value : α} {result : α → Prop} (h : result value) :
    Preserves hierarchy good (pure value) result := fun _ declares => ⟨h, declares⟩

theorem bind {action : Resolving α} {next : α → Resolving β} {middle : α → Prop}
    {result : β → Prop} (first : Preserves hierarchy good action middle)
    (second : ∀ value, middle value → Preserves hierarchy good (next value) result) :
    Preserves hierarchy good (action >>= next) result := by
  intro cache declares
  obtain ⟨found, still⟩ := first cache declares
  exact second _ found _ still

theorem mono {action : Resolving α} {middle result : α → Prop}
    (h : Preserves hierarchy good action middle) (weaker : ∀ value, middle value → result value) :
    Preserves hierarchy good action result := by
  intro cache declares
  obtain ⟨found, still⟩ := h cache declares
  exact ⟨weaker _ found, still⟩

theorem of_ensures {action : Resolving α} {result : α → Prop}
    (h : ∀ table, (∀ name, (table name).Named good) → Ensures hierarchy table action result) :
    Preserves hierarchy good action result := by
  intro cache declares
  obtain ⟨found, still⟩ := h _ declares cache rfl
  exact ⟨found, fun name => by rw [still]; exact declares name⟩

theorem seed {entry : TypeMetadata} (named : entry.Named good) :
    Preserves hierarchy good (Hierarchy.seed entry) fun _ => True := by
  refine fun cache declares => ⟨trivial, fun name => ?_⟩
  have found := declares name
  change (hierarchy.view (cache.insert entry) name).Named good
  rw [Hierarchy.view] at found ⊢
  rw [MetadataCache.find?_insert]
  cases known : cache.find? name with
  | some other =>
    rw [known] at found
    exact found
  | none =>
    rw [known] at found
    by_cases same : entry.name = name
    · simpa [same] using named
    · simpa [same] using found

end Preserves

def Keeps {α : Type} (hierarchy : Hierarchy) (good : String → Prop) (action : Relocating α)
    (result : α → Prop) : Prop :=
  Preserves hierarchy good action.run fun outcome => ∀ value, outcome = .ok value → result value

namespace Keeps

variable {α β : Type} {hierarchy : Hierarchy} {good : String → Prop}

theorem pure {value : α} {result : α → Prop} (h : result value) :
    Keeps hierarchy good (pure value) result := by
  refine Preserves.pure fun other same => ?_
  cases same
  exact h

theorem throw {error : RelocationError} {result : α → Prop} :
    Keeps hierarchy good (throw error) result := Preserves.pure nofun

theorem bind {action : Relocating α} {next : α → Relocating β} {middle : α → Prop}
    {result : β → Prop} (first : Keeps hierarchy good action middle)
    (second : ∀ value, middle value → Keeps hierarchy good (next value) result) :
    Keeps hierarchy good (action >>= next) result := by
  rw [Keeps, ExceptT.run_bind]
  refine Preserves.bind first fun outcome found => ?_
  cases outcome with
  | error error => exact Preserves.pure nofun
  | ok value => exact second value (found value rfl)

theorem mono {action : Relocating α} {middle result : α → Prop}
    (h : Keeps hierarchy good action middle) (weaker : ∀ value, middle value → result value) :
    Keeps hierarchy good action result :=
  Preserves.mono h fun _ found value done => weaker value (found value done)

theorem lift {action : Resolving α} {result : α → Prop}
    (h : Preserves hierarchy good action result) :
    Keeps hierarchy good (liftM action) result := by
  refine Preserves.bind h fun value found => Preserves.pure fun other same => ?_
  cases same
  exact found

theorem mapM {items : List α} {step : α → Relocating β} {related : α → β → Prop}
    (each : ∀ item ∈ items, Keeps hierarchy good (step item) (related item)) :
    Keeps hierarchy good (items.mapM step) (List.Forall₂ related items) := by
  induction items with
  | nil =>
    rw [List.mapM_nil]
    exact .pure .nil
  | cons item rest ih =>
    rw [List.forall_mem_cons] at each
    rw [List.mapM_cons]
    refine .bind each.1 fun value here => ?_
    exact .bind (ih each.2) fun values there => .pure (.cons here there)

end Keeps

section Methods

open Relocator

variable {hierarchy : Hierarchy} {good : String → Prop} {context : FrameContext}

/-- What may become of a body: one that can be read back if it could be before, with other names
only as far as they are good, and with no other labels. -/
structure Code.Recomputed (good : String → Prop) (code result : Code) : Prop where
  proper : ∀ depth, code.Proper depth → result.Proper depth
  brings : BringsNames good code.sites result.sites
  labels : result.labels.Sublist code.labels
  lasting : result.attributes.flatMap CodeAttribute.lasting =
    code.attributes.flatMap CodeAttribute.lasting

theorem Code.Recomputed.refl (code : Code) : code.Recomputed good code :=
  ⟨fun _ => id, .of_subset (List.Subset.refl _), List.Sublist.refl _, rfl⟩

def Code.Reframed (good : String → Prop) (code result : Code) : Prop :=
  result = code ∨ ∃ major entry flow, Flow.Named good code.instructions.length flow ∧
    code.withFlow major entry flow = .ok result

theorem Code.Reframed.recomputed (closed : ClosedNames good) {code result : Code}
    (reframed : code.Reframed good result) : code.Recomputed good result := by
  obtain rfl | ⟨major, entry, flow, named, done⟩ := reframed
  · exact .refl result
  · exact ⟨fun depth proper => proper.withFlow named.size done,
      Code.brings_withFlow closed named done, Code.labels_withFlow done, Code.lasting_withFlow done⟩

theorem gives_recomputeWithin (closed : ClosedNames good) {table : String → TypeMetadata}
    (entries : ∀ name, (table name).Named good) {major : UInt16} {member : Member}
    (descriptor : good member.descriptor) {body : Code} (inside : Flow.NamedIn good context body)
    (steps : Nat) :
    Flow.Gives context.hierarchy table (fun _ => True)
      (body.recomputeWithin context major member steps) (body.Reframed good) := by
  refine .bind (gives_analyze_named closed entries inside descriptor steps) ?_
  rintro ⟨entry, flow⟩ ⟨-, named⟩
  dsimp only
  split
  · exact .fail trivial
  · next result done => exact .pure (.inr ⟨major, entry, flow, named, done⟩)

theorem keeps_recomputeBody (closed : ClosedNames good) {name : String} {major : UInt16}
    {member : Member} (descriptor : good member.descriptor) {body : Code}
    (inside : Flow.NamedIn good context body) :
    Keeps context.hierarchy good (recomputeBody context name major member body)
      (body.Reframed good) := by
  unfold recomputeBody
  split
  · exact .pure (.inl rfl)
  · have outcome : Preserves context.hierarchy good (body.recompute context major member).run
        fun outcome => ∀ result, outcome = .ok result → body.Reframed good result := by
      refine .of_ensures fun table entries => Ensures.mono
        (gives_recomputeWithin closed entries descriptor inside Code.stepLimit) ?_
      rintro outcome found result rfl
      exact found
    refine .bind (.lift outcome) fun outcome found => ?_
    split
    · next result => exact .pure (found result rfl)
    · exact .throw

def Attribute.Reframed (good : String → Prop) (item result : Attribute) : Prop :=
  result = item ∨ ∃ body new, item = .code body ∧ result = .code new ∧ body.Reframed good new

structure Attribute.Recomputed (good : String → Prop) (kind : Signature.Kind)
    (item result : Attribute) : Prop where
  proper : ∀ depth, item.Proper depth → result.Proper depth
  brings : BringsNames good (item.sites kind) (result.sites kind)
  labels : result.labels.Sublist item.labels
  lasting : result.lasting = item.lasting

theorem Attribute.Recomputed.refl (kind : Signature.Kind) (item : Attribute) :
    item.Recomputed good kind item :=
  ⟨fun _ => id, .of_subset (List.Subset.refl _), List.Sublist.refl _, rfl⟩

structure Member.Recomputed (good : String → Prop) (kind : Signature.Kind)
    (member result : Member) : Prop where
  access : result.access = member.access
  name : result.name = member.name
  descriptor : result.descriptor = member.descriptor
  attributes : List.Forall₂ (Attribute.Recomputed good kind) member.attributes result.attributes

theorem Member.Recomputed.refl (kind : Signature.Kind) (member : Member) :
    member.Recomputed good kind member :=
  ⟨rfl, rfl, rfl, List.forall₂_same.2 fun item _ => .refl kind item⟩

theorem Attribute.listSites_eq_flatMap (kind : Signature.Kind) (attributes : List Attribute) :
    Attribute.listSites kind attributes = attributes.flatMap (Attribute.sites kind) := by
  induction attributes with
  | nil => rfl
  | cons first rest ih => rw [Attribute.listSites, ih, List.flatMap_cons]

theorem keeps_reframedMember (closed : ClosedNames good) {name : String} {major : UInt16}
    {member : Member} (own : good context.owner)
    (sites : SitesNamed good (member.sites .method)) :
    Keeps context.hierarchy good (recomputeMember context name major member) fun result =>
      ∃ attributes, result = { member with attributes } ∧
        List.Forall₂ (Attribute.Reframed good) member.attributes attributes := by
  unfold recomputeMember
  have descriptor : good member.descriptor := sites _ List.mem_cons_self
  refine .bind (.mapM fun item listed => ?_) fun attributes all => .pure ⟨attributes, rfl, all⟩
  split
  · next body =>
    have inside : Flow.NamedIn good context body := by
      refine ⟨own, sites.mono fun site member_ => List.mem_cons_of_mem _ ?_⟩
      rw [Attribute.listSites_eq_flatMap]
      exact List.mem_flatMap.2 ⟨_, listed, member_⟩
    refine .bind (keeps_recomputeBody closed descriptor inside) fun result found => .pure ?_
    exact .inr ⟨body, result, rfl, rfl, found⟩
  · exact .pure (.inl rfl)

theorem Attribute.Reframed.recomputed (closed : ClosedNames good) {kind : Signature.Kind}
    {item result : Attribute} (reframed : item.Reframed good result) :
    item.Recomputed good kind result := by
  obtain rfl | ⟨body, new, rfl, rfl, inside⟩ := reframed
  · exact .refl kind result
  · have found := inside.recomputed closed
    exact ⟨found.proper, found.brings, found.labels, found.lasting⟩

theorem keeps_recomputeMember (closed : ClosedNames good) {name : String} {major : UInt16}
    {member : Member} (own : good context.owner)
    (sites : SitesNamed good (member.sites .method)) :
    Keeps context.hierarchy good (recomputeMember context name major member)
      (Member.Recomputed good .method member) := by
  refine (keeps_reframedMember closed own sites).mono fun result found => ?_
  obtain ⟨attributes, rfl, all⟩ := found
  exact ⟨rfl, rfl, rfl, all.imp fun item other reframed => reframed.recomputed closed⟩

theorem Attribute.Recomputed.allProper {depth : Nat} {kind : Signature.Kind}
    {attributes results : List Attribute}
    (all : List.Forall₂ (Attribute.Recomputed good kind) attributes results)
    (proper : Attribute.AllProper depth attributes) : Attribute.AllProper depth results := by
  induction all with
  | nil => exact proper
  | cons here _ ih => exact ⟨here.proper depth proper.1, ih proper.2⟩

theorem Attribute.Recomputed.brings_list {kind : Signature.Kind}
    {attributes results : List Attribute}
    (all : List.Forall₂ (Attribute.Recomputed good kind) attributes results) :
    BringsNames good (Attribute.listSites kind attributes) (Attribute.listSites kind results) := by
  induction all with
  | nil => exact .of_subset (List.Subset.refl _)
  | cons here _ ih => exact .append here.brings ih

theorem Member.Recomputed.brings {kind : Signature.Kind} {member result : Member}
    (here : member.Recomputed good kind result) :
    BringsNames good (member.sites kind) (result.sites kind) := by
  change BringsNames good ([Site.binary member.descriptor] ++ _) ([Site.binary result.descriptor] ++ _)
  rw [here.descriptor]
  exact .append (.of_subset (List.Subset.refl _))
    (Attribute.Recomputed.brings_list here.attributes)

theorem Attribute.Recomputed.labels_list {kind : Signature.Kind} {attributes results : List Attribute}
    (all : List.Forall₂ (Attribute.Recomputed good kind) attributes results) :
    (Attribute.listLabels results).Sublist (Attribute.listLabels attributes) := by
  induction all with
  | nil => exact List.Sublist.refl _
  | cons here _ ih => exact here.labels.append ih

theorem Attribute.Recomputed.lasting_list {kind : Signature.Kind}
    {attributes results : List Attribute}
    (all : List.Forall₂ (Attribute.Recomputed good kind) attributes results) :
    Attribute.listLasting results = Attribute.listLasting attributes := by
  induction all with
  | nil => rfl
  | cons here _ ih => rw [Attribute.listLasting, Attribute.listLasting, here.lasting, ih]

theorem ClassModel.Proper.recomputed {depth : Nat} {model : ClassModel} {methods : List Member}
    (proper : model.Proper depth)
    (all : List.Forall₂ (Member.Recomputed good .method) model.methods methods) :
    ({ model with methods } : ClassModel).Proper depth := by
  refine { proper with methods := fun method listed => ?_ }
  obtain ⟨old, before, here⟩ := exists_of_mem_right all listed
  exact Attribute.Recomputed.allProper here.attributes (proper.methods old before)

theorem ClassModel.brings_recomputed {model : ClassModel} {methods : List Member}
    (all : List.Forall₂ (Member.Recomputed good .method) model.methods methods) :
    BringsNames good model.sites ({ model with methods } : ClassModel).sites := by
  refine .append (.of_subset (List.Subset.refl _)) (.flatMap fun method listed => ?_)
  obtain ⟨old, before, here⟩ := exists_of_mem_right all listed
  exact .inl ⟨old, before, here.brings⟩

end Methods

/-! What relocating a class writes. -/

section Headers

variable {good : String → Prop} {model : ClassModel} (named : SitesNamed good model.sites)

include named

theorem ClassModel.named_name : good model.name := by
  apply named
  simp [ClassModel.sites]

theorem TypeMetadata.named_ofHeader : (ofHeader model.toClassHeader).Named good := by
  constructor
  case superclass =>
    intro name member
    have super : model.superclass = some name := member
    apply named
    simp [ClassModel.sites, super, optionalSite]
  case interfaces =>
    intro name member
    have listed : name ∈ model.interfaces := member
    apply named
    simp [ClassModel.sites, listed]

theorem ClassModel.named_method {method : Member} (member : method ∈ model.methods) :
    SitesNamed good (method.sites .method) := by
  apply named.mono
  intro site inside
  exact List.mem_append_right _ (List.mem_flatMap.2 ⟨method, member, inside⟩)

end Headers

namespace Relocator

variable {relocator : Relocator} {good : String → Prop} (closed : ClosedNames good)

include closed

theorem keeps_recomputeFrames (name : String) {model : ClassModel}
    (named : SitesNamed good model.sites) :
    Keeps relocator.hierarchy good (relocator.recomputeFrames name model) fun result =>
      ∃ methods, result = { model with methods } ∧
        List.Forall₂ (Member.Recomputed good .method) model.methods methods := by
  unfold recomputeFrames
  have header := TypeMetadata.named_ofHeader named
  have seeded : Preserves relocator.hierarchy good
      (discard (Hierarchy.seed (.ofHeader model.toClassHeader))) fun _ => True :=
    fun cache declares => ⟨trivial, (Preserves.seed header cache declares).2⟩
  refine .bind (.lift seeded) fun _ _ => ?_
  refine .bind (.mapM fun member listed => ?_) fun methods all => .pure ⟨methods, rfl, all⟩
  exact @keeps_recomputeMember good ⟨relocator.hierarchy, model.name⟩ closed name model.major member
    (ClassModel.named_name named) (ClassModel.named_method named listed)

theorem keeps_changed (hint : Option String) (bytes : Bytes)
    (named : ∀ file, ClassFile.parse bytes = .ok file →
      SitesNamed good (file.model.relocate relocator.table).sites) :
    Keeps relocator.hierarchy good (relocator.relocate hint bytes) fun result =>
      result.changed = true → ∃ file methods, ClassFile.parse bytes = .ok file ∧
        List.Forall₂ (Member.Recomputed good .method)
          (file.model.relocate relocator.table).methods methods ∧
        ClassFile.toBytes
          { file with model := { file.model.relocate relocator.table with methods } } =
            .ok result.bytes := by
  unfold relocate
  dsimp only
  split
  · exact .throw
  · exact .pure nofun
  · split
    · exact .throw
    · next file parsed =>
      unfold relocateFile
      dsimp only
      split
      · exact .pure nofun
      · split
        · refine .bind (keeps_recomputeFrames closed _ (named file parsed)) ?_
          rintro _ ⟨methods, rfl, all⟩
          split
          · next done => exact .pure fun _ => ⟨file, methods, parsed, all, done⟩
          · exact .throw
        · rw [pure_bind]
          let model := file.model.relocate relocator.table
          have same : List.Forall₂ (Member.Recomputed good .method) model.methods model.methods :=
            List.forall₂_same.2 fun member _ => .refl .method member
          split
          · next done => exact .pure fun _ => ⟨file, _, parsed, same, done⟩
          · exact .throw

end Relocator

end ClassRenaming
