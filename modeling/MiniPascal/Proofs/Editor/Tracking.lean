import Mathlib.Data.List.Forall2
import MiniPascal.Editor.Session
import MiniPascal.Proofs.Editor.Answers

/-! What a session knows of a document. The last message that gave the document a text or closed it
decides, whatever else the session has been told. -/
namespace MiniPascal.Editor

/-- What a message tells of a document: its text, unless the document is closed, and a version. -/
structure News where
  uri : String
  text : Option String
  version : Option Int

namespace Message

/-- The news that a message brings. A change to no text, a save without one and a request bring
none. -/
def news? : Message → Option News
  | opened uri text version => some ⟨uri, some text, some version⟩
  | changed uri version texts => texts.getLast?.map fun text => ⟨uri, some text, some version⟩
  | saved uri text => text.map fun text => ⟨uri, some text, none⟩
  | closed uri => some ⟨uri, none, none⟩
  | tokens _ | shutdown => none

/-- The document that a message is about. -/
def uri? : Message → Option String
  | opened uri _ _ | changed uri _ _ | saved uri _ | closed uri | tokens uri => some uri
  | shutdown => none

/-- The labels of the text that the message brings can be numbered. -/
def Fits (m : Message) : Prop := ∀ n ∈ m.news?, ∀ text ∈ n.text, LabelsFit text

end Message

/-- The problems to be shown of a text, and none if there is no text. -/
def shownOf? : Option String → Option (List Report)
  | some text => reports? text
  | none => some []

/-- The publication shows the news. -/
structure News.Shown (n : News) (p : Publication) : Prop where
  uri : p.uri = n.uri
  version : p.version = n.version
  reports : shownOf? n.text = some p.reports

/-- The last news of a document. -/
def latest? (uri : String) (ms : List Message) : Option News :=
  ((ms.filterMap Message.news?).filter (·.uri == uri)).getLast?

/-- The text that messages leave a document with. -/
def textOf? (uri : String) (ms : List Message) : Option String := (latest? uri ms).bind (·.text)

namespace Session

/-- The session after messages. -/
@[simp] def after : Session → List Message → Session
  | s, [] => s
  | s, m :: ms => after (s.receive m).1 ms

/-- What is published while messages are handled. -/
@[simp] def published : Session → List Message → List Publication
  | _, [] => []
  | s, m :: ms => (s.receive m).2.2 ++ published (s.receive m).1 ms

/-- The answer to a request for the tokens of a document. -/
def answer (s : Session) (uri : String) : Response := (s.receive (.tokens uri)).2.1

/-- What was last published of a document. -/
def lastShown? (s : Session) (uri : String) (ms : List Message) : Option Publication :=
  ((s.published ms).filter (·.uri == uri)).getLast?

/-- The session with news taken over. -/
def take (s : Session) (n : News) : Session :=
  match n.text with
  | some text => s.put n.uri text
  | none => s.erase n.uri

end Session

section
variable {s : Session} {m : Message} {n : News} {ms : List Message} {uri text : String}

namespace Session

theorem text?_erase (s : Session) (u uri : String) :
    (s.erase u).text? uri = if u = uri then none else s.text? uri := by
  obtain ⟨documents, ended⟩ := s
  simp only [text?, erase]
  induction documents with
  | nil => split <;> rfl
  | cons d documents ih =>
    obtain ⟨v, text⟩ := d
    by_cases hv : v = u
    · subst hv
      rw [List.filter_cons_of_neg (by simp), ih]
      split
      · rfl
      · next hne => rw [List.lookup_cons, beq_eq_false_iff_ne.2 (Ne.symm hne)]
    · rw [List.filter_cons_of_pos (by simpa using hv), List.lookup_cons, List.lookup_cons, ih]
      by_cases huri : uri = v
      · subst huri
        rw [beq_self_eq_true, if_neg (Ne.symm hv), if_neg (Ne.symm hv)]
      · rw [beq_eq_false_iff_ne.2 huri]

theorem text?_put (s : Session) (u uri text : String) :
    (s.put u text).text? uri = if u = uri then some text else s.text? uri := by
  have herase := s.text?_erase u uri
  simp only [text?, put, List.lookup_cons] at herase ⊢
  by_cases h : u = uri
  · subst h
    rw [beq_self_eq_true, if_pos rfl]
  · rw [beq_eq_false_iff_ne.2 (Ne.symm h), if_neg h, herase, if_neg h]

/-- News of one document leaves the others alone. -/
theorem text?_take (s : Session) (n : News) (uri : String) :
    (s.take n).text? uri = if n.uri = uri then n.text else s.text? uri := by
  unfold take
  cases n.text with
  | none => exact s.text?_erase n.uri uri
  | some text => exact s.text?_put n.uri uri text

theorem ended_take (s : Session) (n : News) : (s.take n).ended = s.ended := by
  unfold take
  cases n.text <;> rfl

theorem exists_update (s : Session) (uri : String) (version : Option Int) (hfit : LabelsFit text) :
    ∃ p, News.Shown ⟨uri, some text, version⟩ p ∧
      s.update uri text version = (s.take ⟨uri, some text, version⟩, [p]) := by
  obtain ⟨rs, hrs⟩ := exists_reports (compile_ne_defect hfit)
  exact ⟨⟨uri, rs, version⟩, ⟨rfl, rfl, hrs⟩, by simp only [update, hrs, take]⟩

/-- News is taken over and shown. -/
theorem handle_news (s : Session) (hn : m.news? = some n) (hfit : m.Fits) :
    ∃ p, n.Shown p ∧ s.handle m = (s.take n, .silent, [p]) := by
  have hlabels : ∀ text ∈ n.text, LabelsFit text := hfit n hn
  cases m with
  | opened uri text version =>
    obtain rfl := Option.some.inj hn
    obtain ⟨p, hp, hupdate⟩ := s.exists_update uri (some version) (hlabels text rfl)
    exact ⟨p, hp, by simp only [handle, hupdate]⟩
  | changed uri version texts =>
    obtain ⟨text, hlast, rfl⟩ := Option.map_eq_some_iff.1 hn
    obtain ⟨p, hp, hupdate⟩ := s.exists_update uri (some version) (hlabels text rfl)
    exact ⟨p, hp, by simp only [handle, hlast, hupdate]⟩
  | saved uri text? =>
    obtain ⟨text, rfl, rfl⟩ := Option.map_eq_some_iff.1 hn
    obtain ⟨p, hp, hupdate⟩ := s.exists_update uri none (hlabels text rfl)
    exact ⟨p, hp, by simp only [handle, hupdate]⟩
  | closed uri =>
    obtain rfl := Option.some.inj hn
    exact ⟨⟨uri, [], none⟩, ⟨rfl, rfl, rfl⟩, rfl⟩
  | tokens | shutdown => cases hn

/-- Without news, nothing changes and nothing is published. -/
theorem handle_quiet (s : Session) (hn : m.news? = none) (hm : m ≠ .shutdown) :
    (s.handle m).1 = s ∧ (s.handle m).2.2 = [] := by
  cases m with
  | opened | closed => cases hn
  | changed uri version texts =>
    have hlast : texts.getLast? = none := Option.map_eq_none_iff.1 hn
    simp only [handle, hlast, and_self]
  | saved uri text? =>
    obtain rfl := Option.map_eq_none_iff.1 hn
    exact ⟨rfl, rfl⟩
  | tokens uri =>
    simp only [handle]
    split
    · exact ⟨rfl, rfl⟩
    · split <;> exact ⟨rfl, rfl⟩
  | shutdown => exact absurd rfl hm

/-- What has come of a session after messages: the text of each document is what its last news said,
and every news has been shown. -/
structure Follows (s : Session) (ms : List Message) : Prop where
  goesOn : (s.after ms).ended = false
  text : ∀ uri, (s.after ms).text? uri = (latest? uri ms).elim (s.text? uri) (·.text)
  shown : List.Forall₂ News.Shown (ms.filterMap Message.news?) (s.published ms)

end Session

theorem latest?_append (uri : String) (ms later : List Message) :
    latest? uri (ms ++ later) = (latest? uri later).or (latest? uri ms) := by
  rw [latest?, List.filterMap_append, List.filter_append, List.getLast?_append]
  rfl

/-- News is of the document that its message is about. -/
theorem Message.uri?_of_news (hn : m.news? = some n) : m.uri? = some n.uri := by
  cases m with
  | opened | closed =>
    obtain rfl := Option.some.inj hn
    rfl
  | changed | saved =>
    obtain ⟨text, -, rfl⟩ := Option.map_eq_some_iff.1 hn
    rfl
  | tokens | shutdown => cases hn

theorem latest?_of_other (h : m.uri? ≠ some uri) : latest? uri [m] = none := by
  cases hn : m.news? with
  | none => simp [latest?, hn]
  | some n =>
    have huri : n.uri ≠ uri := by
      rintro rfl
      exact h (Message.uri?_of_news hn)
    simp [latest?, hn, huri]

namespace Session

theorem receive_of_goesOn (hs : s.ended = false) (m : Message) : s.receive m = s.handle m := by
  rw [receive, hs]
  rfl

/-- One message. -/
theorem follows_one (hs : s.ended = false) (hm : m ≠ .shutdown) (hfit : m.Fits) :
    s.Follows [m] := by
  have hreceive := receive_of_goesOn hs m
  cases hn : m.news? with
  | none =>
    obtain ⟨hstate, hsent⟩ := s.handle_quiet hn hm
    have hlatest : ∀ uri, latest? uri [m] = none := fun uri => by simp [latest?, hn]
    refine ⟨?_, fun uri => ?_, ?_⟩
    · rw [after, hreceive, hstate]
      exact hs
    · rw [after, hreceive, hstate, hlatest]
      rfl
    · rw [published, hreceive, hsent, List.filterMap_cons_none hn]
      exact .nil
  | some n =>
    obtain ⟨p, hp, hhandle⟩ := s.handle_news hn hfit
    refine ⟨?_, fun uri => ?_, ?_⟩
    · rw [after, hreceive, hhandle]
      exact (s.ended_take n).trans hs
    · rw [after, hreceive, hhandle]
      refine (s.text?_take n uri).trans ?_
      by_cases huri : n.uri = uri
      · simp [latest?, hn, huri]
      · simp [latest?, hn, huri]
    · rw [published, hreceive, hhandle, List.filterMap_cons_some hn]
      exact .cons hp .nil

/-- All messages, one after another. -/
theorem follows (hs : s.ended = false) (hgoesOn : ∀ m ∈ ms, m ≠ .shutdown)
    (hfit : ∀ m ∈ ms, m.Fits) : s.Follows ms := by
  induction ms generalizing s with
  | nil => exact ⟨hs, fun _ => rfl, .nil⟩
  | cons m ms ih =>
    have hfirst := follows_one hs (hgoesOn m List.mem_cons_self) (hfit m List.mem_cons_self)
    have hrest := ih hfirst.goesOn (fun k hk => hgoesOn k (List.mem_cons_of_mem m hk))
      fun k hk => hfit k (List.mem_cons_of_mem m hk)
    refine ⟨hrest.goesOn, fun uri => ?_, ?_⟩
    · have hlatest := latest?_append uri [m] ms
      have htext := hrest.text uri
      rw [hfirst.text uri] at htext
      refine htext.trans ?_
      rw [List.singleton_append] at hlatest
      rw [hlatest]
      cases latest? uri ms <;> rfl
    · have hone := hfirst.shown
      rw [published, published, List.append_nil] at hone
      rw [← List.singleton_append, List.filterMap_append]
      exact List.rel_append hone hrest.shown

/-- A request is answered with the tokens of the text, if there is one. -/
theorem answer_of_goesOn (hs : s.ended = false) (uri : String) :
    s.answer uri = .tokens ((s.text? uri).bind semanticTokens?) := by
  rw [answer, receive_of_goesOn hs]
  cases htext : s.text? uri with
  | none => simp only [handle, htext, Option.bind_none]
  | some text =>
    obtain ⟨ks, hks⟩ := exists_semanticTokens text
    simp only [handle, htext, hks, Option.bind_some]

theorem after_append (s : Session) (ms later : List Message) :
    s.after (ms ++ later) = (s.after ms).after later := by
  induction ms generalizing s with
  | nil => rfl
  | cons m ms ih => exact ih _

theorem published_append (s : Session) (ms later : List Message) :
    s.published (ms ++ later) = s.published ms ++ (s.after ms).published later := by
  induction ms generalizing s with
  | nil => rfl
  | cons m ms ih =>
    rw [List.cons_append, published, published, ih, List.append_assoc]
    rfl

/-- A session that is over stays as it is, and nothing is published any more. -/
theorem after_of_ended (hs : s.ended = true) (ms : List Message) :
    s.after ms = s ∧ s.published ms = [] := by
  induction ms with
  | nil => exact ⟨rfl, rfl⟩
  | cons m ms ih =>
    have hreceive : (s.receive m).1 = s ∧ (s.receive m).2.2 = [] := by
      rw [receive, hs]
      exact ⟨rfl, rfl⟩
    rw [after, published, hreceive.1, hreceive.2]
    exact ih

/-- The end of a session changes no document, and nothing does behind it. -/
theorem after_shutdown (hs : s.ended = false) (later : List Message) :
    (s.after (.shutdown :: later)).documents = s.documents ∧
      s.published (.shutdown :: later) = [] := by
  obtain ⟨hafter, hpublished⟩ := @after_of_ended { s with ended := true } rfl later
  have hreceive : s.receive .shutdown = ({ s with ended := true }, .goodbye, []) :=
    receive_of_goesOn hs .shutdown
  rw [after, published, hreceive, hafter, hpublished]
  exact ⟨rfl, rfl⟩

end Session

/-- What is known of the documents after messages, and what was last shown of them. -/
structure Tracks (ms : List Message) : Prop where
  unknown : ∀ uri, (Session.initial.after ms).answer uri = .tokens none ↔ textOf? uri ms = none
  known : ∀ uri text, textOf? uri ms = some text → ∃ ks, semanticTokens? text = some ks ∧
    (Session.initial.after ms).answer uri = .tokens (some ks)
  shown : ∀ uri n, latest? uri ms = some n →
    ∃ p, Session.initial.lastShown? uri ms = some p ∧ n.Shown p
  unseen : ∀ uri, latest? uri ms = none → Session.initial.lastShown? uri ms = none

/-- What one more message does: its news, if it brings any, is shown once, and other documents are
left alone. -/
structure Handles (front : List Message) (m : Message) : Prop where
  news : ∀ n, m.news? = some n →
    ∃ p, ((Session.initial.after front).receive m).2.2 = [p] ∧ n.Shown p
  quiet : m.news? = none → ((Session.initial.after front).receive m).2.2 = []
  apart : ∀ uri, m.uri? ≠ some uri →
    (Session.initial.after (front ++ [m])).answer uri = (Session.initial.after front).answer uri

/-- Once the session is over, no document changes and nothing is published. -/
structure Ends (ms later : List Message) : Prop where
  documents : (Session.initial.after (ms ++ .shutdown :: later)).documents =
    (Session.initial.after ms).documents
  published : Session.initial.published (ms ++ .shutdown :: later) = Session.initial.published ms

theorem Session.Follows.text_initial (h : Session.initial.Follows ms) (uri : String) :
    (Session.initial.after ms).text? uri = textOf? uri ms := by
  rw [h.text, textOf?]
  cases latest? uri ms <;> rfl

theorem Session.Follows.answer (h : Session.initial.Follows ms) (uri : String) :
    (Session.initial.after ms).answer uri = .tokens ((textOf? uri ms).bind semanticTokens?) := by
  rw [answer_of_goesOn h.goesOn, h.text_initial]

/-- The last of the news and the last of what was published belong together. -/
theorem getLast?_shown {ns : List News} {ps : List Publication}
    (h : List.Forall₂ News.Shown ns ps) : Option.Rel News.Shown ns.getLast? ps.getLast? := by
  have hreverse := List.forall₂_reverse_iff.2 h
  rw [← List.head?_reverse, ← List.head?_reverse]
  generalize ns.reverse = ns', ps.reverse = ps' at hreverse
  cases hreverse with
  | nil => exact .none
  | cons hn _ => exact .some hn

/-- What was shown of a document is its news. -/
theorem Session.Follows.lastShown (h : Session.initial.Follows ms) (uri : String) :
    Option.Rel News.Shown (latest? uri ms) (Session.initial.lastShown? uri ms) := by
  refine getLast?_shown (List.rel_filter (fun n p hp => ?_) h.shown)
  change (n.uri == uri) = true ↔ (p.uri == uri) = true
  rw [hp.uri]

theorem Session.Follows.tracks (h : Session.initial.Follows ms) : Tracks ms := by
  constructor
  case unknown =>
    intro uri
    rw [h.answer]
    cases htext : textOf? uri ms with
    | none => simp
    | some text =>
      obtain ⟨ks, hks⟩ := exists_semanticTokens text
      simp [hks]
  case known =>
    intro uri text htext
    obtain ⟨ks, hks⟩ := exists_semanticTokens text
    refine ⟨ks, hks, ?_⟩
    rw [h.answer, htext, Option.bind_some, hks]
  case shown =>
    intro uri n hn
    have hlast := h.lastShown uri
    rw [hn] at hlast
    cases hp : Session.initial.lastShown? uri ms with
    | none =>
      rw [hp] at hlast
      cases hlast
    | some p =>
      rw [hp] at hlast
      cases hlast with
      | some hshown => exact ⟨p, rfl, hshown⟩
  case unseen =>
    intro uri hn
    have hlast := h.lastShown uri
    rw [hn] at hlast
    cases hp : Session.initial.lastShown? uri ms with
    | none => rfl
    | some p =>
      rw [hp] at hlast
      cases hlast

theorem Session.Follows.handles {front : List Message} (h : Session.initial.Follows front)
    (hlater : Session.initial.Follows (front ++ [m])) (hm : m ≠ .shutdown) (hfit : m.Fits) :
    Handles front m := by
  have hreceive := receive_of_goesOn h.goesOn m
  constructor
  case news =>
    intro n hn
    obtain ⟨p, hp, hhandle⟩ := (Session.initial.after front).handle_news hn hfit
    exact ⟨p, by rw [hreceive, hhandle], hp⟩
  case quiet =>
    intro hn
    rw [hreceive]
    exact ((Session.initial.after front).handle_quiet hn hm).2
  case apart =>
    intro uri huri
    have htext : textOf? uri (front ++ [m]) = textOf? uri front := by
      rw [textOf?, latest?_append, latest?_of_other huri]
      rfl
    rw [h.answer, hlater.answer, htext]

/-- A session tracks each of its documents, whatever messages come in whatever order, as long as
labels can be numbered: it answers with the tokens of the text that the last news of the document
gave, and has shown the problems of that text and no others since. When it is over, nothing changes
any more. -/
theorem session_tracks (hgoesOn : ∀ m ∈ ms, m ≠ .shutdown) (hfit : ∀ m ∈ ms, m.Fits) :
    (∀ front, front <+: ms → Tracks front) ∧
    (∀ front m, front ++ [m] <+: ms → Handles front m) ∧ ∀ later, Ends ms later := by
  have hfollows : ∀ front, front <+: ms → Session.initial.Follows front := fun front hfront =>
    Session.follows rfl (fun m hm => hgoesOn m (hfront.subset hm))
      fun m hm => hfit m (hfront.subset hm)
  refine ⟨fun front hfront => (hfollows front hfront).tracks, fun front m hm => ?_, fun later => ?_⟩
  · have hmem : m ∈ ms := hm.subset (by simp)
    have hfront : front <+: ms := (List.prefix_append front [m]).trans hm
    exact (hfollows front hfront).handles (hfollows _ hm) (hgoesOn m hmem) (hfit m hmem)
  · have hgoes := (hfollows ms (List.prefix_refl ms)).goesOn
    obtain ⟨hdocuments, hpublished⟩ := Session.after_shutdown hgoes later
    refine ⟨?_, ?_⟩
    · rw [Session.after_append]
      exact hdocuments
    · rw [Session.published_append, hpublished, List.append_nil]

/-- A document that is saved with a text after it was closed is known again. -/
theorem session_tracks_saved_after_closed :
    (∀ m ∈ [.opened "a" "x" 1, .closed "a", .saved "a" (some "begin")], m ≠ Message.shutdown) ∧
    (∀ m ∈ [.opened "a" "x" 1, .closed "a", .saved "a" (some "begin")], Message.Fits m) ∧
    ∃ ks, semanticTokens? "begin" = some ks ∧
      (Session.initial.after [.opened "a" "x" 1, .closed "a", .saved "a" (some "begin")]).answer
        "a" = .tokens (some ks) := by
  have hgoesOn : ∀ m ∈ [.opened "a" "x" 1, .closed "a", .saved "a" (some "begin")],
      m ≠ Message.shutdown := by simp
  have hfit : ∀ m ∈ [.opened "a" "x" 1, .closed "a", .saved "a" (some "begin")],
      Message.Fits m := by
    intro m hm
    simp only [List.mem_cons, List.not_mem_nil, or_false] at hm
    rcases hm with rfl | rfl | rfl
    · rintro n ⟨⟩ text ⟨⟩
      exact labelsFit_of_length (by decide +kernel)
    · rintro n ⟨⟩ text ⟨⟩
    · rintro n ⟨⟩ text ⟨⟩
      exact labelsFit_of_length (by decide +kernel)
  have htracks := (session_tracks hgoesOn hfit).1 _ (List.prefix_refl _)
  exact ⟨hgoesOn, hfit, htracks.known "a" "begin" (by decide +kernel)⟩

end
end MiniPascal.Editor
