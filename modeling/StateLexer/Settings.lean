/-!
# Settings

How a scanner behaves where there is a choice. Settings are made from entries,
each of which sets one of them (`Settings.ofEntries`). The settings in force
are kept in an `Ambient`, where new ones can be put in place for a while and
the former ones restored; a scanner takes the settings in force when it is
built and keeps them.
-/

namespace StateLexer

/-- The choices of a scanner. -/
structure Settings where
  /-- A step back needs a step forward to undo. If not, it goes back by the
      width of the last rune, whatever came in between. -/
  strictBackup : Bool := true
  /-- No number of an address has a redundant zero in front. -/
  canonicalOctets : Bool := false
  /-- The producer does not keep the program running. -/
  daemon : Bool := true
  /-- The name of the producer's thread. -/
  threadName : String := "scanr-producer"
  /-- How many milliseconds to wait for the producer to end, or no limit. -/
  joinTimeout : Option Int := some 5000
  deriving DecidableEq

namespace Settings

/-- One setting with its value. -/
inductive Entry
  | strictBackup (value : Bool)
  | canonicalOctets (value : Bool)
  | daemon (value : Bool)
  | threadName (value : String)
  | joinTimeout (value : Option Int)

/-- The settings with one of them set. -/
def set (s : Settings) : Entry → Settings
  | .strictBackup value => { s with strictBackup := value }
  | .canonicalOctets value => { s with canonicalOctets := value }
  | .daemon value => { s with daemon := value }
  | .threadName value => { s with threadName := value }
  | .joinTimeout value => { s with joinTimeout := value }

/-- The default settings with the entries set. -/
def ofEntries (entries : List Entry) : Settings :=
  entries.foldl set {}

end Settings

/-- The settings in force, and those to be restored, the latest first. -/
structure Ambient where
  current : Settings := {}
  saved : List Settings := []
  deriving DecidableEq

namespace Ambient

/-- Puts settings in force. -/
def set (a : Ambient) (s : Settings) : Ambient :=
  { a with current := s }

/-- Puts the default settings in force. -/
def reset (a : Ambient) : Ambient :=
  a.set {}

/-- Puts settings in force until the matching `leave`. -/
def enter (a : Ambient) (s : Settings) : Ambient :=
  { current := s, saved := a.current :: a.saved }

/-- Restores the settings that were in force at the matching `enter`. -/
def leave (a : Ambient) : Ambient :=
  match a.saved with
  | [] => a
  | s :: saved => { current := s, saved }

end Ambient

end StateLexer
