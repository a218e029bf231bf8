import LolToolchain.Editor.Session

/-!
A session and the editor it reports to. The editor's notifications about documents are handled one
after the other. What is published is sent by a task of its own, which may take any time: messages
arrive in any order.
-/
namespace LolToolchain.Editor

/-- What the editor says about a document. A change of a part has no text. -/
inductive Notification where
  | opened (name text : Text)
  | changed (name : Text) (changes : List (Option Text))
  | closed (name : Text)
  deriving DecidableEq, Repr, Inhabited

def Session.handle [CharNames] (s : Session) : Notification → Option Publication × Session
  | .opened name text => s.setDocument name text
  | .changed name changes => s.change name changes
  | .closed name =>
    let (p, s) := s.close name
    (some p, s)

/-- A publication on its way, with the number of those that were sent before. -/
structure Message where
  number : Nat
  publication : Publication
  deriving DecidableEq, Repr, Inhabited

/-- The session, how many messages it has sent, those that have not arrived, and those that have, in
the order in which they came. -/
structure Exchange where
  session : Session
  sent : Nat
  underway : List Message
  received : List Message
  deriving DecidableEq, Repr, Inhabited

namespace Exchange

def start (optimize : Bool) : Exchange :=
  ⟨.start optimize, 0, [], []⟩

/-- A notification is handled. Its message is underway when that is done. -/
def notify [CharNames] (e : Exchange) (n : Notification) : Exchange :=
  match e.session.handle n with
  | (none, session) => { e with session }
  | (some p, session) =>
    { e with session, sent := e.sent + 1, underway := e.underway ++ [⟨e.sent, p⟩] }

def arrive (e : Exchange) (m : Message) : Exchange :=
  { e with underway := e.underway.erase m, received := e.received ++ [m] }

/-- What an exchange can have come to when some notifications have been handled: messages arrive at
any time after they were sent, in any order. -/
inductive Reaches [CharNames] (optimize : Bool) : List Notification → Exchange → Prop where
  | start : Reaches optimize [] (start optimize)
  | notify {ns : List Notification} {e : Exchange} (h : Reaches optimize ns e) (n : Notification) :
    Reaches optimize (ns ++ [n]) (e.notify n)
  | arrive {ns : List Notification} {e : Exchange} (h : Reaches optimize ns e) {m : Message}
    (hm : m ∈ e.underway) : Reaches optimize ns (e.arrive m)

def about (e : Exchange) (name : Text) : List Message :=
  e.received.filter (·.publication.document == name)

/-- The remarks that the editor shows on a document: those that have come last. -/
def shown? (e : Exchange) (name : Text) : Option (List Mark) :=
  (e.about name).getLast?.map (·.publication.marks)

end Exchange
end LolToolchain.Editor
