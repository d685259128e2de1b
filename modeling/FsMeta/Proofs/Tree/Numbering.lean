import FsMeta.Proofs.Service.Confined
import FsMeta.Proofs.Tree.Agreement

set_option autoImplicit false

namespace FsMeta

def Writes.Numbered (writes : Writes) : Prop := Writes.Extended Numbering .empty writes

def Contents.Numbered (contents : Contents) : Prop := ∀ id, (contents (Key.inode id).bytes).isSome → 0 < id

namespace Contents

variable {contents : Contents} {writes : Writes}

theorem Numbered.write (numbered : contents.Numbered) (added : writes.Numbered) :
    (contents.write writes).Numbered := by
  intro id held
  rcases added.write contents (Key.inode id).bytes with same | numbering
  · rw [same, write_empty] at held
    exact numbered id held
  · exact numbering id rfl held

theorem Numbered.after (numbered : contents.Numbered) {past : List Writes}
    (added : ∀ writes ∈ past, writes.Numbered) : (contents.after past).Numbered := by
  induction past generalizing contents with
  | nil => exact numbered
  | cons writes rest ih =>
    obtain ⟨first, others⟩ := List.forall_mem_cons.1 added
    exact ih (numbered.write first) others

end Contents

namespace Tree

open Scoped (Only)

theorem only_perform (change : Change) : Only Numbering change.perform := by
  have plants {α : Type} {action : Scoped α} (only : Only Planting action) : Only Numbering action :=
    only.mono fun _ _ => And.right
  have deletes {α : Type} {action : Scoped α} (only : Only Deleting action) : Only Numbering action :=
    only.mono fun _ _ => Deleting.numbering
  cases change with
  | create node sized => exact plants (only_create_planting node)
  | reparent id source destination => exact plants (only_reparent_planting id source destination)
  | deleteFile id => exact deletes (only_deleteFile id)
  | deleteDirectory id => exact deletes (.bind (only_deleteDirectory id) fun _ => .pure _)
  | deleteChild parent name => exact deletes (only_deleteChild parent name)

namespace System

variable {system : System} {index : Nat} {client : Client}

structure Numbered (system : System) : Prop where
  clients : ∀ client ∈ system.clients, Writes.Numbered client.scope.tx.writes
  past : ∀ writes ∈ system.world.past, writes.Numbered

namespace Numbered

theorem revise (numbered : system.Numbered) (engine : Engine) (index : Nat)
    (added : Writes.Numbered client.scope.tx.writes) : (system.revise engine index client).Numbered where
  clients other member := by
    rcases List.mem_or_eq_of_mem_set member with member | rfl
    · exact numbered.clients other member
    · exact added
  past := numbered.past

theorem finish (numbered : system.Numbered) (engine : Engine) (index : Nat) (client : Client) :
    (system.revise engine index client.ended).Numbered :=
  numbered.revise engine index (.refl _ _)

theorem begin (numbered : system.Numbered) (interrupts : Interrupts) : (system.begin interrupts).Numbered := by
  rcases system.engine.begin_cases interrupts with ⟨error, refused, _⟩ | ⟨later, opened, _⟩
  · rw [begin_of_error refused]
    exact ⟨numbered.clients, numbered.past⟩
  · rw [begin_of_ok opened]
    refine ⟨fun client member => ?_, numbered.past⟩
    rcases List.mem_append.1 member with member | member
    · exact numbered.clients client member
    · cases List.mem_singleton.1 member
      exact .refl _ _

theorem change (numbered : system.Numbered) (change : Change) (member : client ∈ system.clients)
    (unfinished : client.scope.tx.finished = false) : (system.change change index client).Numbered := by
  obtain ⟨written, stays, extended⟩ := Engine.step_ensures rfl unfinished (only_perform change _ _)
  cases result : (system.engine.step client.scope change.perform).1 with
  | error error =>
    rw [change_of_error result]
    exact numbered.finish _ _ _
  | ok _ =>
    rw [change_of_ok result]
    refine numbered.revise _ _ ?_
    rw [stays]
    exact (numbered.clients client member).trans (extended _ result)

theorem commit (numbered : system.Numbered) (member : client ∈ system.clients) :
    (system.commit index client).Numbered := by
  cases result : (system.engine.commit client.scope).1 with
  | error error =>
    rw [commit_of_error result]
    exact numbered.finish _ _ _
  | ok _ =>
    rw [commit_of_ok result]
    refine ⟨(numbered.finish (system.engine.commit client.scope).2 index client).clients, fun writes added => ?_⟩
    rw [World.past, world, List.map_append] at added
    rcases List.mem_append.1 added with before | own
    · exact numbered.past writes before
    · cases List.mem_singleton.1 own
      exact numbered.clients client member

theorem act (numbered : system.Numbered) (request : Request) : (system.act request).Numbered := by
  have called (index : Nat) {call : Nat → Client → System}
      (keeps : ∀ client, client ∈ system.clients → client.scope.tx.finished = false → (call index client).Numbered) :
      (system.withClient index call).Numbered := by
    rcases withClient_cases system index call with same | ⟨client, found, unfinished, same⟩
    · rwa [same]
    · rw [same]
      exact keeps client (List.mem_of_getElem? found) unfinished
  cases request with
  | begin interrupts => exact numbered.begin interrupts
  | change index change => exact called index fun client member => numbered.change change member
  | commit index => exact called index fun client member _ => numbered.commit member
  | rollback index => exact called index fun client _ _ => numbered.finish _ _ client
  | timestamp => exact ⟨numbered.clients, numbered.past⟩
  | interrupt index interrupts =>
    exact called index fun client member _ => numbered.revise _ _ (numbered.clients client member)
  | fail schedule => exact ⟨numbered.clients, numbered.past⟩

theorem run (numbered : system.Numbered) (requests : List Request) : (system.run requests).Numbered := by
  induction requests generalizing system with
  | nil => exact numbered
  | cons request rest ih => exact ih (numbered.act request)

end Numbered

theorem numbered_opened (journal : Option Journal.Log) (loose : Bool) : (opened journal loose).Numbered where
  clients := by simp [opened]
  past := by simp [World.past, world, opened]

end System

end Tree

end FsMeta
