import LiburingRs.Basic
import LiburingRs.SubmissionQueue
import LiburingRs.Ring
import LiburingRs.CompletionQueue
import LiburingRs.Refinement
import LiburingRs.AsyncStd
import LiburingRs.Tokio.Poll
import LiburingRs.Tokio.System
import LiburingRs.Tokio.Delivery
import LiburingRs.Tokio.Wakeup
import LiburingRs.Tokio.Errors
import LiburingRs.Examples.Kernel
import LiburingRs.Examples.IoUringCp
import LiburingRs.Examples.LinkCp
import LiburingRs.Examples.IoUringCpAccount
import LiburingRs.Examples.IoUringCpWrites
import LiburingRs.Examples.IoUringCpOk
import LiburingRs.Examples.LinkCpAccount
import LiburingRs.Examples.LinkCpWrites
import LiburingRs.Examples.DebugBuild
import LiburingRs.Examples.ReleaseBuild
import LiburingRs.Examples.Cat
import LiburingRs.Examples.Represented
import LiburingRs.Examples.PollBench
import LiburingRs.Examples.ReadFile
