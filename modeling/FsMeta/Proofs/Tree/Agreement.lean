import FsMeta.Proofs.Engine
import FsMeta.Proofs.Tree.Clients
import FsMeta.Proofs.Tree.History
import FsMeta.Proofs.Tree.Sweep

set_option autoImplicit false

namespace FsMeta.Tree

theorem ensures_perform {base : Contents} {writes : Writes} {whole : Prop} (change : Change)
    (woven : Woven base writes [] whole) :
    Scoped.Ensures base change.perform writes fun _ later =>
      Woven base later [] (whole ∧ change.unlinks = false) := by
  cases change with
  | create node sized => exact (ensures_create sized woven).mono fun _ _ woven => woven.weaken And.left
  | reparent id source destination =>
    exact (ensures_reparent woven).mono fun _ _ woven => woven.weaken And.left
  | deleteFile id => exact (ensures_deleteFile woven).mono fun _ _ woven => woven.weaken And.left
  | deleteDirectory id =>
    exact .bind ((ensures_deleteDirectory woven).mono fun _ _ woven => .pure (woven.weaken And.left))
  | deleteChild parent name =>
    exact (ensures_deleteChild woven).mono fun _ _ woven => woven.weaken fun full => by cases full.2

namespace System

def Whole (system : System) : Prop := ∀ commit ∈ system.commits, commit.session.note = false

instance decidableWhole (system : System) : Decidable system.Whole :=
  inferInstanceAs (Decidable (∀ commit ∈ system.commits, commit.session.note = false))

structure Linked (system : System) : Prop where
  sound : World.Sound .empty system.world
  tied : Tied (Contents.empty.after system.world.past) [] system.Whole
  traced : Traced .empty system.world.past system.Whole
  woven : ∀ client ∈ system.clients, client.scope.tx.finished = false →
    Woven (Contents.empty.after (system.world.past.take client.born)) client.scope.tx.writes []
      (system.Whole ∧ client.unlinked = false)

variable {system : System} {index : Nat} {client : Client}

namespace Linked

-- Without a commit the clients can be looked at one by one.
theorem keep (linked : system.Linked) {next : System} (sound : World.Sound .empty next.world)
    (same : next.commits = system.commits)
    (clients : ∀ client ∈ next.clients, client.scope.tx.finished = false → client ∈ system.clients ∨
      Woven (Contents.empty.after (system.world.past.take client.born)) client.scope.tx.writes []
        (system.Whole ∧ client.unlinked = false)) : next.Linked := by
  have past : next.world.past = system.world.past := congrArg (List.map Commit.writes) same
  have whole : next.Whole = system.Whole := by rw [Whole, Whole, same]
  constructor
  · exact sound
  · rw [past, whole]
    exact linked.tied
  · rw [past, whole]
    exact linked.traced
  · intro client member unfinished
    rw [past, whole]
    rcases clients client member unfinished with member | woven
    · exact linked.woven client member unfinished
    · exact woven

theorem open_of_ended {other : Client} (member : other ∈ system.clients.set index client.ended)
    (unfinished : other.scope.tx.finished = false) : other ∈ system.clients := by
  rcases List.mem_or_eq_of_mem_set member with member | rfl
  · exact member
  · cases unfinished

theorem finish (linked : system.Linked) (found : system.clients[index]? = some client) {engine : Engine}
    (released : engine.storage.store = (client.scope.tx.finish system.store).2) :
    (system.revise engine index client.ended).Linked := by
  apply linked.keep
  · rw [world_ended released]
    exact linked.sound.finish (session_of_client found)
  · rfl
  · exact fun other member unfinished => .inl (open_of_ended member unfinished)

theorem idle (linked : system.Linked) {engine : Engine} (same : engine.storage.store = system.store) :
    (system.withEngine engine).Linked := by
  have world : (system.withEngine engine).world = system.world := by
    simp only [world, store, withEngine, same]
  apply linked.keep
  · rw [world]
    exact linked.sound
  · rfl
  · exact fun client member _ => .inl member

theorem timestamp (linked : system.Linked) (forward : system.store.clock ≤
    (system.withEngine system.engine.timestamp.2).store.clock) :
    (system.withEngine system.engine.timestamp.2).Linked := by
  rcases system.engine.timestamp_cases with same | moved
  · exact linked.idle same
  · have world : (system.withEngine system.engine.timestamp.2).world = system.world.timestamp := by
      simp only [world, store, withEngine, moved]
      rfl
    apply linked.keep
    · rw [world]
      apply linked.sound.step .timestamp
      rw [← world]
      exact forward
    · rfl
    · exact fun client member _ => .inl member

theorem begin (linked : system.Linked) (interrupts : Interrupts) : (system.begin interrupts).Linked := by
  rcases system.engine.begin_cases interrupts with ⟨error, refused, same⟩ | ⟨later, opened, started⟩
  · rw [begin_of_error refused]
    exact linked.idle same
  · rw [begin_of_ok opened]
    apply linked.keep
    · have begun := linked.sound.begin false
      simp only [world, store, started, List.map_append]
      exact begun
    · rfl
    · intro client member unfinished
      rcases List.mem_append.1 member with member | member
      · exact .inl member
      · cases List.mem_singleton.1 member
        have all : system.world.past.take system.commits.length = system.world.past :=
          List.take_of_length_le (by simp [World.past, world])
        right
        rw [all]
        exact linked.tied.woven.weaken And.left

theorem revise (linked : system.Linked) (found : system.clients[index]? = some client) {engine : Engine}
    (same : engine.storage.store = system.store) {next : Client} {written : Writes}
    (stays : next.scope.tx = { client.scope.tx with writes := written }) (born : next.born = client.born)
    (woven : Woven (Contents.empty.after (system.world.past.take client.born)) written []
      (system.Whole ∧ next.unlinked = false)) : (system.revise engine index next).Linked := by
  apply linked.keep
  · have revised := linked.sound.step (.revise (session_of_client found) written next.unlinked)
      (UInt64.le_refl _)
    simp only [world, store, System.revise, same, List.map_set, Client.session, stays, born]
    exact revised
  · rfl
  · intro other member unfinished
    rcases List.mem_or_eq_of_mem_set member with member | rfl
    · exact .inl member
    · right
      rw [stays, born]
      exact woven

theorem change (linked : system.Linked) (change : Change) (found : system.clients[index]? = some client)
    (unfinished : client.scope.tx.finished = false) : (system.change change index client).Linked := by
  have woven := linked.woven client (List.mem_of_getElem? found) unfinished
  have snapshot := linked.sound.snapshot (session_of_client found) unfinished
  obtain ⟨written, stays, performed⟩ :=
    Engine.step_ensures snapshot unfinished (ensures_perform change woven)
  cases result : (system.engine.step client.scope change.perform).1 with
  | error error =>
    rw [change_of_error result, stays]
    exact linked.finish found rfl
  | ok _ =>
    rw [change_of_ok result]
    let next : Client :=
      { client with
        scope := (system.engine.step client.scope change.perform).2.1
        unlinked := client.unlinked || change.unlinks }
    have same : next.scope.tx = { client.scope.tx with writes := written } := stays
    have born : next.born = client.born := rfl
    apply linked.revise found (Engine.store_step _ _ _) same born
    exact (performed _ result).weaken (by simp [next, and_assoc])

theorem interrupt (linked : system.Linked) (interrupts : Interrupts)
    (found : system.clients[index]? = some client) (unfinished : client.scope.tx.finished = false) :
    (system.interrupt interrupts index client).Linked := by
  let next : Client := { client with scope := { client.scope with interrupts } }
  have same : next.scope.tx = { client.scope.tx with writes := client.scope.tx.writes } := rfl
  have born : next.born = client.born := rfl
  exact linked.revise found rfl same born (linked.woven client (List.mem_of_getElem? found) unfinished)

theorem publish (linked : system.Linked) (found : system.clients[index]? = some client)
    (unfinished : client.scope.tx.finished = false)
    (clear : system.store.overtaken? client.scope.tx = none) {next : System} {journalEnd : Nat}
    (sound : World.Sound .empty next.world)
    (added : next.commits = system.commits ++ [{ session := client.session, journalEnd }])
    (others : ∀ other ∈ next.clients, other.scope.tx.finished = false → other ∈ system.clients) :
    next.Linked := by
  have woven := linked.woven client (List.mem_of_getElem? found) unfinished
  have session := session_of_client found
  have traced : Traced .empty system.world.past (system.Whole ∧ client.unlinked = false) :=
    linked.traced.weaken And.left
  have apart := traced.apart (linked.sound.born_le session unfinished)
    (linked.sound.unwritten session unfinished clear)
  have past : next.world.past = system.world.past ++ [client.scope.tx.writes] := by
    simp [World.past, world, added, Commit.writes, Client.session]
  have less (whole : next.Whole) : system.Whole ∧ client.unlinked = false := by
    rw [Whole, added] at whole
    exact ⟨fun commit member => whole commit (List.mem_append_left _ member),
      whole _ List.mem_concat_self⟩
  constructor
  · exact sound
  · rw [past, Contents.after_append]
    exact (woven.publish apart (linked.tied.weaken And.left)).weaken less
  · rw [past]
    exact (traced.append fun _ => woven.quiet_publish apart).weaken less
  · intro other member unfinished
    obtain ⟨place, found⟩ := List.mem_iff_getElem?.1 (others other member unfinished)
    have bound : other.born ≤ system.world.past.length :=
      linked.sound.born_le (session_of_client found) unfinished
    rw [past, List.take_append_of_le_length bound]
    apply (linked.woven other (List.mem_of_getElem? found) unfinished).weaken
    exact fun full => ⟨(less full.1).1, full.2⟩

theorem commit (linked : system.Linked) (found : system.clients[index]? = some client)
    (unfinished : client.scope.tx.finished = false)
    (forward : system.store.clock ≤ (system.commit index client).store.clock) :
    (system.commit index client).Linked := by
  rcases system.engine.commit_cases client.scope with ⟨error, failed, released⟩ | ⟨same, stored⟩
  · rw [commit_of_error failed]
    exact linked.finish found released
  · have world : (system.commit index client).world = system.world.commit index client.session :=
      world_commit unfinished same stored
    have sound : World.Sound .empty (system.commit index client).world := by
      rw [world]
      apply linked.sound.commit (session_of_client found)
      rw [← world]
      exact forward
    cases result : (system.engine.commit client.scope).1 with
    | error error =>
      rw [commit_of_error result] at sound ⊢
      exact linked.keep sound rfl fun other member unfinished => .inl (open_of_ended member unfinished)
    | ok _ =>
      have clear := Transaction.clear_of_commit unfinished (same.symm.trans result)
      rw [commit_of_ok result] at sound ⊢
      exact linked.publish found unfinished clear sound rfl fun other => open_of_ended

theorem act (linked : system.Linked) (request : Request)
    (forward : system.store.clock ≤ (system.act request).store.clock) : (system.act request).Linked := by
  have called (index : Nat) {call : Nat → Client → System}
      (keeps : ∀ client, system.clients[index]? = some client → client.scope.tx.finished = false →
        system.withClient index call = call index client → (call index client).Linked) :
      (system.withClient index call).Linked := by
    rcases withClient_cases system index call with same | ⟨client, found, unfinished, same⟩
    · rwa [same]
    · rw [same]
      exact keeps client found unfinished same
  cases request with
  | begin interrupts => exact linked.begin interrupts
  | change index change =>
    exact called index fun client found unfinished _ => linked.change change found unfinished
  | commit index =>
    apply called index
    intro client found unfinished same
    rw [System.act, same] at forward
    exact linked.commit found unfinished forward
  | rollback index => exact called index fun client found _ _ => linked.finish found rfl
  | timestamp => exact linked.timestamp forward
  | interrupt index interrupts =>
    exact called index fun client found unfinished _ => linked.interrupt interrupts found unfinished
  | fail schedule => exact linked.idle rfl

theorem run (linked : system.Linked) (requests : List Request) (steady : system.Steady requests) :
    (system.run requests).Linked := by
  induction requests generalizing system with
  | nil => exact linked
  | cons request rest ih => exact ih (linked.act request steady.1) steady.2

end Linked

theorem linked_opened (journal : Option Journal.Log) (loose : Bool) : (opened journal loose).Linked where
  sound :=
    { faithful := (World.sound_opened [] journal).faithful
      fresh := by simp [world, opened] }
  tied :=
    { kept := Contents.kept_empty
      down := fun _ _ _ _ link => by cases link
      up := fun _ _ _ _ inode => by cases inode.1 }
  traced := .nil
  woven := by simp [opened]

theorem links_agree (journal : Option Journal.Log) (loose : Bool) (requests : List Request)
    (steady : (opened journal loose).Steady requests) :
    let system := (opened journal loose).run requests
    let contents := system.store.committed
    (∀ parent name bytes, contents (Key.child parent name).bytes = some bytes →
      ∃ (id : Int64) (node : INode), Record.decode bytes = .ok (ChildLink.mk id) ∧
        contents.Holds (.inode id) node ∧ node.id = id ∧ node.parentId = parent ∧ node.name = name) ∧
    (system.Whole → ∀ id bytes, contents (Key.inode id).bytes = some bytes →
      ∃ node : INode, Record.decode bytes = .ok node ∧ node.id = id ∧
        contents.Holds (.child node.parentId node.name) (ChildLink.mk id)) := by
  intro system contents
  have linked : system.Linked := (linked_opened journal loose).run requests steady
  have tied : Tied contents [] system.Whole := by
    have same : contents = Contents.empty.after system.world.past := linked.sound.committed
    rw [same]
    exact linked.tied
  constructor
  · intro parent name bytes held
    obtain ⟨id, link, decoded⟩ := tied.kept.link held
    obtain ⟨node, inode, named⟩ := tied.down parent name id (by simp) link
    exact ⟨id, node, decoded, inode.holds, inode.2.own, named⟩
  · intro whole id bytes held
    obtain ⟨node, inode, decoded⟩ := tied.kept.inode held
    exact ⟨node, decoded, inode.2.own, (tied.up whole id node (by simp) inode).holds⟩

def directory : INode := { id := 1, name := "etc", kind := .directory, parentId := 9 }

def file : INode := { id := 2, name := "hosts", parentId := 1 }

-- Two clients at once: one creates a file in the directory that the other deletes, and is faster.
def overlap : List Request :=
  [.begin .never, .change 0 (.create directory ⟨by decide, by decide, by decide⟩), .commit 0,
    .begin .never, .begin .never, .change 1 (.create file ⟨by decide, by decide, by decide⟩),
    .change 2 (.deleteDirectory 1), .commit 1, .commit 2]

theorem links_agree_overlap :
    let system := (opened none false).run overlap
    let contents := system.store.committed
    system.commits.length = 2 ∧
    (∃ (id : Int64) (node : INode), contents.Holds (.child 1 "hosts") (ChildLink.mk id) ∧
      contents.Holds (.inode id) node ∧ node.id = id ∧ node.parentId = 1 ∧ node.name = "hosts") ∧
    ∃ node : INode, contents.Holds (.inode 1) node ∧ node.id = 1 ∧
      contents.Holds (.child node.parentId node.name) (ChildLink.mk 1) := by
  intro system contents
  obtain ⟨down, up⟩ := links_agree none false overlap (steady_of_length_lt (by decide))
  have link : contents (Key.child 1 "hosts").bytes = some (Record.encode (ChildLink.mk 2)) := by
    decide +kernel
  have inode : contents (Key.inode 1).bytes = some (Record.encode directory) := by decide +kernel
  obtain ⟨id, node, decoded, rest⟩ := down 1 "hosts" _ link
  obtain ⟨root, rootDecoded, rootOwn, linked⟩ := up (by decide +kernel) 1 _ inode
  refine ⟨by decide +kernel, ?_, ?_⟩
  · exact ⟨id, node, ⟨_, link, decoded⟩, rest⟩
  · exact ⟨root, ⟨_, inode, rootDecoded⟩, rootOwn, linked⟩

end System

end FsMeta.Tree
