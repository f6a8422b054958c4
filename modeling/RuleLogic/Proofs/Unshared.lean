import RuleLogic.Session
import RuleLogic.Proofs.Allowlists
import RuleLogic.Proofs.Ownership
import RuleLogic.Proofs.Registration

/-!
# Sessions without sharing

That evaluators share registries, and in which order these list their operators, is seen in no
answer: a session answers as one does in which every evaluator has a registry of its own and a copy
copies the registry.

    (start layout).handleAll requests = Unshared.empty.handleAll requests        (handleAll_start)

The sessions are followed request by request.  What carries the induction is that the owners of
every registry are counted exactly, so that a request changes what one name stands for and leaves
what all others read.
-/

namespace RuleLogic

namespace Session

/-! ## Members -/

/-- The addresses that the members hold. -/
def held (s : Session) : List Nat := s.members.map (·.2.address)

/-- The addresses that the members under other names hold. -/
def others (s : Session) (name : String) : List Nat :=
  (s.members.filter (·.1 != name)).map (·.2.address)

/-- Names are not repeated, and the registries that the members hold are counted. -/
structure Sound (s : Session) : Prop where
  heap : s.heap.Sound s.held
  names : (s.members.map (·.1)).Nodup

theorem sound_start (layout : Layout) : (start layout).Sound := ⟨Heap.sound_empty, List.nodup_nil⟩

section
variable {s : Session} {name other : String} {m : Member}

theorem lookup_filter_of_ne (h : name ≠ other) (members : List (String × Member)) :
    (members.filter (·.1 != other)).lookup name = members.lookup name := by
  induction members with
  | nil => rfl
  | cons e rest ih =>
    rw [List.filter_cons, List.lookup_cons]
    by_cases he : e.1 = other
    · have hname : (name == e.1) = false := beq_eq_false_iff_ne.2 (he ▸ h)
      rw [if_neg (by simp [he]), ih, hname]
    · rw [if_pos (by simp [he]), List.lookup_cons, ih]

theorem member?_put (other : String) (m : Member) : (s.put other m).member? name =
    if name = other then some m else s.member? name := by
  show ((other, m) :: s.members.filter (·.1 != other)).lookup name = _
  rw [List.lookup_cons]
  split
  · next h => rw [if_pos (eq_of_beq h)]
  · next h =>
    have hne := beq_eq_false_iff_ne.1 h
    rw [if_neg hne]
    exact lookup_filter_of_ne hne s.members

theorem mem_held_of_member? (h : s.member? name = some m) : m.address ∈ s.held := by
  obtain ⟨before, after, hsplit, -⟩ := List.lookup_eq_some_iff.1 h
  have hmem : (name, m) ∈ s.members := by
    rw [hsplit]
    exact List.mem_append_right _ List.mem_cons_self
  exact List.mem_map_of_mem (f := fun e : String × Member => e.2.address) hmem

theorem mem_others_of_member? (h : s.member? name = some m) (hne : name ≠ other) :
    m.address ∈ s.others other := by
  rw [member?, ← lookup_filter_of_ne hne s.members] at h
  exact mem_held_of_member? (s := { s with members := s.members.filter (·.1 != other) }) h

/-- What a name stands for holds one address and the other names hold the others. -/
theorem held_perm (hs : s.Sound) (h : s.member? name = some m) :
    s.held.Perm (m.address :: s.others name) := by
  obtain ⟨before, after, hsplit, -⟩ := List.lookup_eq_some_iff.1 h
  have hnames := hs.names
  rw [hsplit, List.map_append, List.map_cons, List.nodup_middle, ← List.map_append,
    List.nodup_cons] at hnames
  have hrest : ∀ e ∈ before ++ after, (e.1 != name) = true := by
    intro e he
    rw [bne_iff_ne]
    intro hname
    exact hnames.1 (List.mem_map.2 ⟨e, he, hname⟩)
  have hothers : s.members.filter (·.1 != name) = before ++ after := by
    rw [hsplit, List.filter_append, List.filter_cons_of_neg (by simp), ← List.filter_append]
    exact List.filter_eq_self.2 hrest
  rw [held, others, hothers, hsplit]
  exact List.perm_middle.map fun e : String × Member => e.2.address

theorem held_eq_others (h : s.member? name = none) : s.held = s.others name := by
  have hkeep : s.members.filter (·.1 != name) = s.members := by
    refine List.filter_eq_self.2 fun e he => ?_
    rw [bne_iff_ne]
    exact (bne_iff_ne.1 (List.lookup_eq_none_iff.1 h e he)).symm
  rw [held, others, hkeep]

/-! ## What a request changes -/

/-- The name comes to stand for an evaluator with a registry of these operators, and all other
members read what they read before. -/
structure Becomes (s : Session) (name sink : String) (r : Registry) (s' : Session) : Prop where
  sound : s'.Sound
  member : ∃ m, s'.member? name = some m ∧ m.sink = sink ∧ (s'.heap.registry m.address).Same r
  others : ∀ other m, other ≠ name → s.member? other = some m →
    s'.heap.registry m.address = s.heap.registry m.address
  member?_eq : ∀ other, other ≠ name → s'.member? other = s.member? other

variable {heap : Heap} {address : Nat} {sink : String} {r : Registry}

/-- A name that goes on at another address. -/
theorem Sound.put (hs : s.Sound) (hheap : s.heap.Serves (s.others name) heap address)
    (hr : (heap.registry address).Same r) :
    s.Becomes name sink r ({ s with heap := heap }.put name ⟨address, sink⟩) where
  sound := by
    refine ⟨hheap.sound, List.nodup_cons.2 ⟨fun hmem => ?_, ?_⟩⟩
    · obtain ⟨e, he, hname⟩ := List.mem_map.1 hmem
      have hne := List.of_mem_filter he
      exact bne_iff_ne.1 hne hname
    · exact List.Nodup.sublist (List.filter_sublist.map _) hs.names
  member := by
    refine ⟨⟨address, sink⟩, ?_, rfl, hr⟩
    rw [member?_put, if_pos rfl]
  others other m hne hm := hheap.registry_eq _ (mem_others_of_member? hm hne)
  member?_eq other hne := by
    rw [member?_put, if_neg hne]
    rfl

/-- A name that is given a share of its own; what it stood for gives up its share. -/
theorem Sound.set (hs : s.Sound) (hheap : s.heap.Serves s.held heap address)
    (hr : (heap.registry address).Same r) :
    s.Becomes name sink r ({ s with heap := heap }.set name ⟨address, sink⟩) := by
  have hmember : ({ s with heap := heap } : Session).member? name = s.member? name := rfl
  unfold Session.set
  rw [hmember]
  cases hm : s.member? name with
  | none =>
    rw [held_eq_others hm] at hheap
    exact hs.put hheap hr
  | some old =>
    have hperm := held_perm hs hm
    have hreleased := (hheap.sound.perm ((hperm.cons address).trans (.swap ..))).release
    refine hs.put ⟨hreleased, fun b hb => ?_⟩ hr
    exact hheap.registry_eq b (hperm.mem_iff.2 (List.mem_cons_of_mem _ hb))

theorem Sound.copy (hs : s.Sound) (hm : s.member? name = some m) (target : String) :
    s.Becomes target m.sink (s.heap.registry m.address) (s.perform name m (.copy target)) :=
  hs.set ⟨hs.heap.share (mem_held_of_member? hm), fun _ _ => rfl⟩ fun _ => rfl

theorem Sound.redirect (hs : s.Sound) (hm : s.member? name = some m) (sink : String) :
    s.Becomes name sink (s.heap.registry m.address) (s.perform name m (.redirect sink)) :=
  hs.put ⟨hs.heap.perm (held_perm hs hm), fun _ _ => rfl⟩ fun _ => rfl

theorem Sound.register (hs : s.Sound) (hm : s.member? name = some m) (f : CustomOperator) :
    s.Becomes name m.sink ((s.heap.registry m.address).register f)
      (s.perform name m (.register f)) := by
  obtain ⟨hserves, hfound⟩ := (hs.heap.perm (held_perm hs hm)).register s.layout f
  exact hs.put hserves hfound

theorem Sound.create (hs : s.Sound) (name : String) (operators : List CustomOperator) :
    s.Becomes name name (.ofList operators) (s.handle (.create name operators)).1 := by
  obtain ⟨hserves, hfound⟩ := hs.heap.create s.layout operators
  exact hs.set hserves hfound

end

/-! ## Runs -/

/-- The name of the evaluator that a request makes, replaces or changes. -/
def target? : Request → Option String
  | .create name _ => some name
  | .ask name action =>
    match action with
    | .copy target => some target
    | .redirect _ | .register _ => some name
    | _ => none

/-- The session behind further requests. -/
def after (s : Session) (requests : List Request) : Session :=
  requests.foldl (fun s q => (s.handle q).1) s

/-- The registry that an evaluator reads. -/
def registryOf (s : Session) (name : String) : Option Registry :=
  (s.member? name).map fun m => s.heap.registry m.address

section
variable {s : Session} {name : String}

/-- A request changes what its target stands for, or nothing. -/
theorem Sound.handle_cases (hs : s.Sound) (q : Request) : (s.handle q).1 = s ∨
    ∃ name sink r, target? q = some name ∧ s.Becomes name sink r (s.handle q).1 := by
  cases q with
  | create name operators => exact .inr ⟨name, _, _, rfl, hs.create name operators⟩
  | ask name action =>
    cases hm : s.member? name with
    | none => exact .inl (by simp only [handle, hm])
    | some m =>
      simp only [handle, hm]
      cases action with
      | copy target => exact .inr ⟨target, _, _, rfl, hs.copy hm target⟩
      | redirect sink => exact .inr ⟨name, _, _, rfl, hs.redirect hm sink⟩
      | register f => exact .inr ⟨name, _, _, rfl, hs.register hm f⟩
      | names | find _ | call _ _ | eval _ _ | validate _ | known => exact .inl rfl

theorem Sound.handle (hs : s.Sound) (q : Request) : (s.handle q).1.Sound := by
  rcases hs.handle_cases q with heq | ⟨_, _, _, -, hbecomes⟩
  · rwa [heq]
  · exact hbecomes.sound

theorem Sound.after (hs : s.Sound) (requests : List Request) : (s.after requests).Sound := by
  induction requests generalizing s with
  | nil => exact hs
  | cons q rest ih => exact ih (hs.handle q)

/-- A request leaves what it does not target as it is, down to the order of its operators. -/
theorem Sound.handle_other (hs : s.Sound) {q : Request} (h : target? q ≠ some name) :
    (s.handle q).1.member? name = s.member? name ∧
      (s.handle q).1.registryOf name = s.registryOf name := by
  rcases hs.handle_cases q with heq | ⟨target, _, _, htarget, hbecomes⟩
  · rw [heq]
    exact ⟨rfl, rfl⟩
  · have hne : name ≠ target := by
      rintro rfl
      exact h htarget
    have hmember := hbecomes.member?_eq name hne
    refine ⟨hmember, ?_⟩
    rw [registryOf, registryOf, hmember]
    exact Option.map_congr fun m hm => hbecomes.others name m hne hm

theorem Sound.after_other (hs : s.Sound) {requests : List Request}
    (h : ∀ q ∈ requests, target? q ≠ some name) :
    (s.after requests).member? name = s.member? name ∧
      (s.after requests).registryOf name = s.registryOf name := by
  induction requests generalizing s with
  | nil => exact ⟨rfl, rfl⟩
  | cons q rest ih =>
    obtain ⟨hmember, hregistry⟩ := hs.handle_other (h q List.mem_cons_self)
    have hrest : ∀ q' ∈ rest, target? q' ≠ some name := fun q' hq' =>
      h q' (List.mem_cons_of_mem q hq')
    obtain ⟨hmembers, hregistries⟩ := ih (hs.handle q) hrest
    exact ⟨hmembers.trans hmember, hregistries.trans hregistry⟩

end

end Session

/-! ## What can be told apart -/

namespace Registry.Same

variable {r r' : Registry} (h : r.Same r')

include h

theorem mem_names_iff (name : String) : name ∈ r.names ↔ name ∈ r'.names := by
  rw [Registry.mem_names_iff, Registry.mem_names_iff, h]

theorem isEmpty_eq : r.isEmpty = r'.isEmpty := by
  have hiff (r : Registry) : r.isEmpty = true ↔ ∀ name, name ∉ r.names := by
    rw [isEmpty, List.isEmpty_iff, ← List.eq_nil_iff_forall_not_mem, names, List.map_eq_nil_iff]
  rw [Bool.eq_iff_iff, hiff, hiff]
  exact forall_congr' fun name => not_congr (h.mem_names_iff name)

theorem eval_eq (rule : Value) : eval r rule = eval r' rule :=
  eval_congr_registry fun name _ _ => .of_eq (h name)

/-- Registries that find the same operators are not told apart by any answer. -/
theorem respond_eq (sink : String) (action : Session.Action) :
    Session.respond ⟨r⟩ sink action = Session.respond ⟨r'⟩ sink action := by
  cases action with
  | copy _ | redirect _ | register _ => rfl
  | names => simp only [Session.respond, Names.sort_congr h.mem_names_iff, h.isEmpty_eq]
  | find operator => simp only [Session.respond, h operator]
  | call operator operands => simp only [Session.respond, h operator]
  | eval rule data => simp only [Session.respond, Evaluator.evaluate, h.eval_eq]
  | validate rule =>
    have hreport := validate_congr (fun name _ => h.mem_names_iff name) rule
    simp only [Session.respond, Evaluator.validate, Evaluator.allowlist, hreport]
  | known =>
    have hknown := known_congr fun name _ => h.mem_names_iff name
    simp only [Session.respond, Evaluator.allowlist, hknown]

end Registry.Same

/-! ## Sessions without sharing -/

/-- An evaluator with a registry of its own, and its sink. -/
structure Unshared.Member where
  evaluator : Evaluator
  sink : String

/-- A session in which no two evaluators share a registry. -/
structure Unshared where
  member? : String → Option Unshared.Member

namespace Unshared

open Session (Request Response Action)

def empty : Unshared := ⟨fun _ => none⟩

def set (t : Unshared) (name : String) (m : Member) : Unshared :=
  ⟨fun other => if other = name then some m else t.member? other⟩

def perform (t : Unshared) (name : String) (m : Member) : Action → Unshared
  | .copy target => t.set target m
  | .redirect sink => t.set name { m with sink := sink }
  | .register f => t.set name { m with evaluator := m.evaluator.register f }
  | _ => t

def handle (t : Unshared) : Request → Unshared × Response
  | .create name operators => (t.set name ⟨⟨.ofList operators⟩, name⟩, Session.silent .done)
  | .ask name action =>
    match t.member? name with
    | some m => (t.perform name m action, Session.respond m.evaluator m.sink action)
    | none => (t, Session.silent .noEvaluator)

def handleAll (t : Unshared) : List Request → List Response
  | [] => []
  | q :: rest =>
    let (next, response) := t.handle q
    response :: next.handleAll rest

/-- The session behind further requests. -/
def after (t : Unshared) (requests : List Request) : Unshared :=
  requests.foldl (fun t q => (t.handle q).1) t

end Unshared

namespace Session

/-- Members by which the same operators are found, with the same sink. -/
structure Agrees (s : Session) (m : Member) (m' : Unshared.Member) : Prop where
  registry : (s.heap.registry m.address).Same m'.evaluator.registry
  sink : m.sink = m'.sink

/-- A session that does as one without sharing: each name stands for members that agree. -/
structure Refines (s : Session) (t : Unshared) : Prop where
  sound : s.Sound
  agrees : ∀ name, Option.Rel s.Agrees (s.member? name) (t.member? name)

theorem refines_start (layout : Layout) : (start layout).Refines .empty :=
  ⟨sound_start layout, fun _ => .none⟩

section
variable {s s' : Session} {t : Unshared} {name sink : String} {r : Registry}

/-- Where a name comes to stand for the same on both sides, the other names still do. -/
theorem Becomes.refines (hb : s.Becomes name sink r s') (h : s.Refines t) {m : Unshared.Member}
    (hr : r.Same m.evaluator.registry) (hsink : sink = m.sink) : s'.Refines (t.set name m) := by
  refine ⟨hb.sound, fun other => ?_⟩
  show Option.Rel s'.Agrees (s'.member? other) (if other = name then some m else t.member? other)
  split
  · next heq =>
    obtain ⟨m', hm', hsink', hr'⟩ := hb.member
    rw [heq, hm']
    exact .some ⟨hr'.trans hr, hsink'.trans hsink⟩
  · next hne =>
    have hother := h.agrees other
    rw [hb.member?_eq other hne]
    generalize hm : s.member? other = m?, t.member? other = m'? at hother
    cases hother with
    | none => exact .none
    | some hagrees =>
      refine .some ⟨?_, hagrees.sink⟩
      rw [hb.others other _ hne hm]
      exact hagrees.registry

/-- A request is answered alike, and the sessions behind it do alike. -/
theorem Refines.handle (h : s.Refines t) (q : Request) :
    (s.handle q).1.Refines (t.handle q).1 ∧ (s.handle q).2 = (t.handle q).2 := by
  cases q with
  | create name operators =>
    exact ⟨(h.sound.create name operators).refines h (fun _ => rfl) rfl, rfl⟩
  | ask name action =>
    have hname := h.agrees name
    simp only [Session.handle, Unshared.handle]
    generalize hm : s.member? name = m?, t.member? name = m'? at hname
    cases hname with
    | none => exact ⟨h, rfl⟩
    | @some m m' hagrees =>
      have hrespond : respond (s.evaluator m) m.sink action =
          respond m'.evaluator m'.sink action := by
        rw [hagrees.sink]
        exact hagrees.registry.respond_eq m'.sink action
      refine ⟨?_, hrespond⟩
      cases action with
      | copy target => exact (h.sound.copy hm target).refines h hagrees.registry hagrees.sink
      | redirect sink => exact (h.sound.redirect hm sink).refines h hagrees.registry rfl
      | register f =>
        exact (h.sound.register hm f).refines h (hagrees.registry.register f) hagrees.sink
      | names | find _ | call _ _ | eval _ _ | validate _ | known => exact h

theorem Refines.after (h : s.Refines t) (requests : List Request) :
    (s.after requests).Refines (t.after requests) := by
  induction requests generalizing s t with
  | nil => exact h
  | cons q rest ih => exact ih (h.handle q).1

theorem Refines.handleAll (h : s.Refines t) (requests : List Request) :
    s.handleAll requests = t.handleAll requests := by
  induction requests generalizing s t with
  | nil => rfl
  | cons q rest ih =>
    obtain ⟨hnext, hresponse⟩ := h.handle q
    show (s.handle q).2 :: (s.handle q).1.handleAll rest = _
    rw [hresponse, ih hnext]
    rfl

/-- Neither sharing nor the order in which registries list their operators is seen. -/
theorem handleAll_start (layout : Layout) (requests : List Request) :
    (start layout).handleAll requests = Unshared.empty.handleAll requests :=
  (refines_start layout).handleAll requests

end

end Session

end RuleLogic
