import LolToolchain.Editor.Exchange
import LolToolchain.Proofs.Table
import LolToolchain.Text.CommonNames

/-!
What an editor is left with when all messages have arrived. The session has the text of each document
as it is then, and for each notification that sets or closes a document the editor has got the remarks
due at that time. But they come in any order: the editor is sure to be right about a document only if
the last message on it to be sent is the last to come.
-/
namespace LolToolchain.Editor

/-- The remarks on a text. -/
def remarks [CharNames] (optimize : Bool) (text : Text) : List Mark :=
  marks text <| match compileSource 0 text optimize with
    | .ok _ => none
    | .error d => some (.single d)

/-- The remarks on a document that has a text or is closed. -/
def remarksOn [CharNames] (optimize : Bool) : Option Text → List Mark
  | some text => remarks optimize text
  | none => []

namespace Notification

/-- The document a notification is about. -/
def document : Notification → Text
  | .opened name _ | .changed name _ | .closed name => name

/-- The text that a document has after a notification; `none` stands for a change that is of no
use. -/
def text? : Notification → Option (Option Text)
  | .opened _ text => some (some text)
  | .changed _ changes => changes.getLast?.join.map some
  | .closed _ => some none

/-- What is due to be published on a notification. -/
def publication? [CharNames] (optimize : Bool) (n : Notification) : Option Publication :=
  n.text?.map fun text => ⟨n.document, remarksOn optimize text⟩

end Notification

/-- The texts that a document has had, with a `none` for each time it was closed. -/
def texts (name : Text) (ns : List Notification) : List (Option Text) :=
  (ns.filter (·.document == name)).filterMap (·.text?)

/-- The messages that are sent on some notifications. -/
def messages [CharNames] (optimize : Bool) (ns : List Notification) : List Message :=
  (ns.filterMap (·.publication? optimize)).zipIdx.map fun x => ⟨x.2, x.1⟩

variable {optimize : Bool} {ns : List Notification} {n : Notification} {name : Text}

namespace Session

variable {s : Session}

theorem handle_fst [CharNames] (hs : s.checking = true) (n : Notification) :
    (s.handle n).1 = n.publication? s.optimize := by
  have hcheck : ∀ name text, s.check name text = some ⟨name, remarks s.optimize text⟩ := by
    intro name text
    rw [check, if_pos hs]
    rfl
  cases n with
  | opened name text => exact hcheck name text
  | changed name changes =>
    simp only [handle, change, Notification.publication?, Notification.text?]
    rcases changes.getLast? with _ | _ | text
    · rfl
    · rfl
    · exact hcheck name text
  | closed name => rfl

theorem handle_settings [CharNames] (s : Session) (n : Notification) :
    (s.handle n).2.checking = s.checking ∧ (s.handle n).2.optimize = s.optimize := by
  cases n with
  | changed name changes =>
    simp only [handle, change]
    split <;> exact ⟨rfl, rfl⟩
  | _ => exact ⟨rfl, rfl⟩

/-- A notification sets the text of its document, and of no other. -/
theorem document?_handle [CharNames] (s : Session) (n : Notification) (name : Text) :
    (s.handle n).2.document? name =
      if n.document = name then n.text?.getD (s.document? name) else s.document? name := by
  have hset : ∀ name' text, (s.setDocument name' text).2.document? name =
      if name' = name then some text else s.document? name := by
    intro name' text
    by_cases heq : name' = name
    · rw [if_pos heq, heq]
      exact List.lookup_cons_self
    · rw [if_neg heq]
      exact lookup_cons_filter_of_ne (Ne.symm heq)
  cases n with
  | opened name' text => exact hset name' text
  | changed name' changes =>
    simp only [handle, change, Notification.text?, Notification.document]
    rcases changes.getLast? with _ | _ | text
    · exact (ite_self _).symm
    · exact (ite_self _).symm
    · exact hset name' text
  | closed name' =>
    change _ = if name' = name then none else s.document? name
    by_cases heq : name' = name
    · rw [if_pos heq]
      exact heq ▸ lookup_filter_self
    · rw [if_neg heq]
      exact lookup_filter_of_ne (Ne.symm heq)

end Session

theorem texts_append_singleton : texts name (ns ++ [n]) =
    if n.document = name then texts name ns ++ n.text?.toList else texts name ns := by
  simp only [texts, List.filter_append, List.filterMap_append]
  split
  · rename_i heq
    rw [List.filter_cons_of_pos (by simp [heq])]
    cases h : n.text? <;> simp [h]
  · rename_i hne
    rw [List.filter_cons_of_neg (by simp [hne])]
    simp

theorem messages_append_singleton [CharNames] :
    messages optimize (ns ++ [n]) = messages optimize ns ++ (n.publication? optimize).toList.map
      (⟨(ns.filterMap (·.publication? optimize)).length, ·⟩) := by
  simp only [messages, List.filterMap_append, List.zipIdx_append, List.map_append]
  cases h : n.publication? optimize <;> simp [h]

private theorem map_publication_messages [CharNames] :
    (messages optimize ns).map (·.publication) = ns.filterMap (·.publication? optimize) := by
  rw [messages, List.map_map]
  exact List.zipIdx_map_fst 0 _

/-- Messages have the numbers in which they are sent. -/
theorem pairwise_messages [CharNames] :
    (messages optimize ns).Pairwise fun m m' => m.number < m'.number := by
  have hnumbers : (messages optimize ns).map (·.number) =
      List.range' 0 (ns.filterMap (·.publication? optimize)).length := by
    rw [messages, List.map_map]
    exact List.zipIdx_map_snd 0 _
  refine List.pairwise_map.1 ?_
  rw [hnumbers]
  exact List.pairwise_lt_range' 1

/-- What is published on a document is what is due each time it gets a text or is closed. -/
private theorem marks_publications [CharNames] :
    ((ns.filterMap (·.publication? optimize)).filter (·.document == name)).map (·.marks) =
      (texts name ns).map (remarksOn optimize) := by
  rw [texts]
  induction ns with
  | nil => rfl
  | cons n ns ih =>
    cases htext : n.text? with
    | none =>
      have hnone : n.publication? optimize = none := by rw [Notification.publication?, htext]; rfl
      rw [List.filterMap_cons_none hnone, ih, List.filter_cons]
      split
      · rw [List.filterMap_cons_none htext]
      · rfl
    | some text =>
      have hsome : n.publication? optimize = some ⟨n.document, remarksOn optimize text⟩ := by
        rw [Notification.publication?, htext]
        rfl
      rw [List.filterMap_cons_some hsome, List.filter_cons, List.filter_cons]
      split
      · rw [List.filterMap_cons_some htext, List.map_cons, List.map_cons, ih]
      · exact ih

theorem marks_messages [CharNames] : ((messages optimize ns).filter
      (·.publication.document == name)).map (·.publication.marks) =
    (texts name ns).map (remarksOn optimize) := by
  rw [← marks_publications, ← map_publication_messages, List.filter_map, List.map_map]
  rfl

/-- The greatest of a growing list of numbers is the last one. -/
theorem getLast?_of_forall_le {l : List Message} {m : Message}
    (h : l.Pairwise fun m m' => m.number < m'.number) (hm : m ∈ l)
    (hle : ∀ m' ∈ l, m'.number ≤ m.number) : l.getLast? = some m := by
  rcases List.eq_nil_or_concat l with rfl | ⟨ms, last, rfl⟩
  · cases hm
  rw [List.concat_eq_append] at *
  rw [List.getLast?_concat]
  rcases List.mem_append.1 hm with hm | hm
  · have hlt := (List.pairwise_append.1 h).2.2 m hm last (List.mem_singleton_self last)
    have hge := hle last (List.mem_append_right _ (List.mem_singleton_self last))
    omega
  · rw [List.mem_singleton.1 hm]

namespace Exchange

variable {e : Exchange} {m : Message}

/-- What an exchange has come to when some notifications have been handled: the session has the texts,
and each message that is due has been sent and is underway or has arrived. -/
structure Tracks [CharNames] (optimize : Bool) (ns : List Notification) (e : Exchange) : Prop where
  settings : e.session.checking = true ∧ e.session.optimize = optimize
  documents : ∀ name, e.session.document? name = (texts name ns).getLast?.join
  sent : e.sent = (ns.filterMap (·.publication? optimize)).length
  messages : (e.underway ++ e.received).Perm (messages optimize ns)

private theorem tracks_start [CharNames] : (start optimize).Tracks optimize [] where
  settings := ⟨rfl, rfl⟩
  documents _ := rfl
  sent := rfl
  messages := .nil

private theorem Tracks.notify [CharNames] (h : e.Tracks optimize ns) (n : Notification) :
    (e.notify n).Tracks optimize (ns ++ [n]) := by
  obtain ⟨⟨hchecking, hoptimize⟩, hdocuments, hsent, hmessages⟩ := h
  have hpublication := e.session.handle_fst hchecking n
  rw [hoptimize] at hpublication
  have hsession : (e.notify n).session = (e.session.handle n).2 := by
    unfold Exchange.notify
    split <;> rename_i heq <;> rw [heq]
  obtain ⟨hchecking', hoptimize'⟩ := e.session.handle_settings n
  refine ⟨?_, fun name => ?_, ?_, ?_⟩
  · rw [hsession]
    exact ⟨hchecking'.trans hchecking, hoptimize'.trans hoptimize⟩
  · rw [hsession, e.session.document?_handle, texts_append_singleton, hdocuments]
    split
    · cases n.text? <;> simp
    · rfl
  · unfold Exchange.notify
    rw [List.filterMap_append, List.length_append]
    split <;> rename_i heq <;> rw [heq] at hpublication
    · simp [← hpublication, hsent]
    · simp [← hpublication, hsent]
  · rw [messages_append_singleton, ← hsent, ← hpublication]
    unfold Exchange.notify
    split <;> rename_i heq <;> rw [heq]
    · simpa using hmessages
    · rw [List.append_assoc]
      exact (List.Perm.append_left _ List.perm_append_comm).trans
        (by simpa using hmessages.append_right _)

/-- A message that arrives is not underway any more. -/
private theorem Tracks.arrive [CharNames] (h : e.Tracks optimize ns) (hm : m ∈ e.underway) :
    (e.arrive m).Tracks optimize ns := by
  refine { h with messages := List.Perm.trans ?_ h.messages }
  have hsplit : (e.underway ++ e.received).Perm (e.underway.erase m ++ m :: e.received) :=
    ((List.perm_cons_erase hm).append_right _).trans List.perm_middle.symm
  refine List.Perm.trans ?_ hsplit.symm
  exact List.Perm.append_left _ (List.perm_append_singleton m e.received)

private theorem Reaches.tracks [CharNames] (h : Reaches optimize ns e) : e.Tracks optimize ns := by
  induction h with
  | start => exact tracks_start
  | notify _ n ih => exact ih.notify n
  | arrive _ hm ih => exact ih.arrive hm

/-- When all messages have arrived, the session has the final text of each document, the editor has
got what was due each time the document got a text or was closed, in some order, and it shows what is
due for the final text if the message sent last has come last. -/
theorem Reaches.shown_of_settled [CharNames] (h : Reaches optimize ns e) (hall : e.underway = [])
    (name : Text) :
    e.session.document? name = (texts name ns).getLast?.join ∧
    ((e.about name).map (·.publication.marks)).Perm ((texts name ns).map (remarksOn optimize)) ∧
    ((∀ m ∈ e.about name, ∀ last ∈ (e.about name).getLast?, m.number ≤ last.number) →
      e.shown? name = (texts name ns).getLast?.map (remarksOn optimize)) := by
  have htracks := h.tracks
  have hperm : (e.about name).Perm
      ((messages optimize ns).filter (·.publication.document == name)) := by
    have hmessages := htracks.messages
    rw [hall, List.nil_append] at hmessages
    exact hmessages.filter _
  refine ⟨htracks.documents name, ?_, fun hlast => ?_⟩
  · rw [← marks_messages]
    exact hperm.map _
  · rw [shown?, ← List.getLast?_map (f := remarksOn optimize), ← marks_messages, List.getLast?_map]
    congr 1
    cases hget : (e.about name).getLast? with
    | none =>
      rw [List.getLast?_eq_none_iff] at hget
      rw [hget] at hperm
      rw [← hperm.nil_eq, List.getLast?_nil]
    | some last =>
      refine (getLast?_of_forall_le (pairwise_messages.filter _) ?_ fun m hm => ?_).symm
      · exact hperm.mem_iff.1 (List.mem_of_getLast? hget)
      · exact hlast m (hperm.mem_iff.2 hm) last hget

/-- A text with an unknown name. -/
def brokenText : Text := "HAI 1.2\nVISIBLE x\nKTHXBYE\n"

def mendedText : Text := "HAI 1.2\nVISIBLE 1\nKTHXBYE\n"

/-- The remark on the unknown name. -/
def brokenMark : Mark :=
  ⟨⟨1, 8⟩, ⟨1, 9⟩, some "unknown-symbol", "unknown symbol x"⟩

attribute [local instance] CharNames.common

theorem remarks_brokenText : remarks true brokenText = [brokenMark] := by
  decide +kernel

private theorem remarks_mendedText : remarks true mendedText = [] := by
  decide +kernel

/-- Two documents, one of which is mended. The messages on it come in order. -/
theorem Reaches.shown_of_settled_mended :
    ∃ e, Reaches true [.opened "a" brokenText, .opened "b" mendedText,
        .changed "a" [none, some mendedText]] e ∧ e.underway = [] ∧
      e.received.map (·.number) = [1, 0, 2] ∧
      e.session.document? "a" = some mendedText ∧
      ((e.about "a").map (·.publication.marks)).Perm [[brokenMark], []] ∧ e.shown? "a" = some [] := by
  have hchanged : Reaches true [.opened "a" brokenText, .opened "b" mendedText,
        .changed "a" [none, some mendedText]]
      ⟨⟨[("a", mendedText), ("b", mendedText)], true, true⟩, 3,
        [⟨0, "a", remarks true brokenText⟩, ⟨1, "b", remarks true mendedText⟩,
          ⟨2, "a", remarks true mendedText⟩], []⟩ :=
    ((Reaches.start.notify _).notify _).notify _
  rw [remarks_brokenText, remarks_mendedText] at hchanged
  have hother := hchanged.arrive (m := ⟨1, "b", []⟩) (by simp)
  have hbroken := hother.arrive (m := ⟨0, "a", [brokenMark]⟩) (by decide)
  have hmended := hbroken.arrive (m := ⟨2, "a", []⟩) (by decide)
  obtain ⟨hdocument, hperm, hshown⟩ := hmended.shown_of_settled (by decide) "a"
  have htexts : texts "a" [.opened "a" brokenText, .opened "b" mendedText,
      .changed "a" [none, some mendedText]] = [some brokenText, some mendedText] := rfl
  rw [htexts, List.map_cons, List.map_singleton, remarksOn, remarksOn, remarks_brokenText,
    remarks_mendedText] at hperm
  rw [htexts, List.getLast?_cons_cons, List.getLast?_singleton, Option.map_some, remarksOn,
    remarks_mendedText] at hshown
  exact ⟨_, hmended, by decide, by decide, hdocument, hperm, hshown (by decide)⟩

/-- A document is closed, and the message that takes its remarks back comes first: when both have
come, the editor shows a remark on a document that is closed. -/
theorem remarks_come_after_close :
    ∃ e, Reaches true [.opened "a" brokenText, .closed "a"] e ∧ e.underway = [] ∧
      (texts "a" [.opened "a" brokenText, .closed "a"]).getLast? = some none ∧
      e.shown? "a" = some [brokenMark] := by
  have hclosed : Reaches true [.opened "a" brokenText, .closed "a"]
      ⟨⟨[], true, true⟩, 2, [⟨0, "a", remarks true brokenText⟩, ⟨1, "a", []⟩], []⟩ :=
    (Reaches.start.notify _).notify _
  rw [remarks_brokenText] at hclosed
  have hcleared := hclosed.arrive (m := ⟨1, "a", []⟩) (by simp)
  have hmarked := hcleared.arrive (m := ⟨0, "a", [brokenMark]⟩) (by decide)
  exact ⟨_, hmarked, by decide, by decide, by decide⟩

end Exchange
end LolToolchain.Editor
