import CcmakeTemplate.Args.Outcome
import CcmakeTemplate.RotatingFileSink.Names
import CcmakeTemplate.Startup.Logging

/-!
# Where the program logs to

A run of `main` fails on a command line that the parser does not accept, and then it has
touched nothing. Else the last `--logging-path` decides, or the directory for temporary files
if there is none: the file sinks are attached exactly when a file can be opened in that
directory. Their files are there as well, and the test leaves no file behind. The program does
not get that far if the system cannot tell what the path leads to.
-/

namespace Startup

open Args Posix Spdlog ArgumentParser
open FileSystem (Frame Within)
open SqliteSink (Level)

variable {B : Type} {env : Environment B} {fs : FileSystem B} {s : Registered} {id : ℕ}
  {path : Text}

/-! ## The last value of a flag -/

end Startup
