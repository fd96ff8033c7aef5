import Fissure.Model.HaveWriter
import Fissure.Model.TorrentSystem

/-!
# The actors of one torrent and what they tell the peers

All tasks of a torrent together with the writers of its connections, as far as these announce
pieces. A connection starts with the answer to its registration, which its writer sends as the
`Bitfield`; after that the writer follows the log of the manager that is shared with everything
else. It can ask the manager only while that is not waiting for a flush.
-/

set_option autoImplicit false

namespace Fissure.Model

/-- All tasks of one torrent, and what the writer of each connection keeps for itself. -/
structure AnnouncingSystem where
  system : TorrentSystem
  writers : List WriterState

/-- What one task does next. -/
inductive AnnouncingEvent
  | system (e : SystemEvent)
  /-- the writer of connection `c` does its next step -/
  | writer (c : ℕ) (e : WriterEvent)

/-- Whether the writer asks the manager. -/
def WriterEvent.asksManager : WriterEvent → Bool
  | .askProgress _ => true
  | _ => false

namespace AnnouncingSystem

/-- `TorrentManager::new`, without any connection. -/
def new (torrent : ClientTorrentMetaInfo) (peerOptions : PeerOptions) (fileSystem : FileSystem)
    (downloadPath : PathBuf) : Option AnnouncingSystem :=
  (TorrentSystem.new torrent peerOptions fileSystem downloadPath).map fun system => ⟨system, []⟩

/-- The start of `state_machine`: the writer takes the answer to the registration. -/
def connect (s : AnnouncingSystem) (peerId : String) (env : Env) : Option AnnouncingSystem := do
  let (system, reply) ← s.system.handle (.addPeer peerId []) env
  match reply with
  | .bitfield localBitfield => some {
      system := { system with connections := system.connections ++ [Connection.new peerId] }
      writers := s.writers ++ [⟨.starting localBitfield, 0, []⟩] }
  | _ => none

/-- A step of the tasks that do not announce. -/
def others (sha1 : Bytes → Bytes) (s : AnnouncingSystem) : SystemEvent → Option AnnouncingSystem
  | .connect peerId env => s.connect peerId env
  | e => (systemStep sha1 s.system e).map fun (system, _) => { s with system }

/-- The manager and one writer. -/
def view (s : AnnouncingSystem) (w : WriterState) : HaveWriter :=
  ⟨s.system.manager, w.phase, w.seen, w.sent⟩

/-- A step of one writer, which is registered already. -/
def writer (s : AnnouncingSystem) (c : ℕ) (e : WriterEvent) : Option AnnouncingSystem :=
  match e with
  | .recv _ _ | .register _ _ => none
  | _ => do
    let w ← s.writers[c]?
    if s.system.finishing.isSome && e.asksManager then none
    else
      let (t, _) ← writerStep (s.view w) e
      some {
        system := { s.system with manager := t.manager }
        writers := s.writers.set c ⟨t.phase, t.seen, t.sent⟩ }

end AnnouncingSystem

/-- One step of the tasks and the announcing writers. -/
def announcingStep (sha1 : Bytes → Bytes) (s : AnnouncingSystem) (e : AnnouncingEvent) :
    Option (AnnouncingSystem × Unit) :=
  (match e with
  | .system e => s.others sha1 e
  | .writer c e => s.writer c e).map fun t => (t, ())

end Fissure.Model
