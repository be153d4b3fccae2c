import PrimeMover.Registry
import PrimeMover.Purge
import PrimeMover.Scoping
import PrimeMover.Substitution
import PrimeMover.Failure
import PrimeMover.Freshness
import PrimeMover.Forwarding
import PrimeMover.Spellings
import PrimeMover.Crash
import PrimeMover.Escape
import PrimeMover.Untouched
import PrimeMover.Identity
import PrimeMover.Include
import PrimeMover.Percent
import PrimeMover.Container
import PrimeMover.LinkTimes
import PrimeMover.Install
import PrimeMover.Cleanup
import PrimeMover.Coverage
import PrimeMover.Rebuild
import PrimeMover.Selector
import PrimeMover.Neutral
import PrimeMover.Options
import PrimeMover.Termination
import PrimeMover.Instances
import PrimeMover.Renaming
import PrimeMover.LinkLoops
import PrimeMover.Handles
import PrimeMover.Bundle
import PrimeMover.Collapse
import PrimeMover.Comments
import PrimeMover.Swapping
import PrimeMover.Munching
import PrimeMover.Reruns
import PrimeMover.Directives
