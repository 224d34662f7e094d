import LibeventHttpServe.Balancer.Sockets
import LibeventHttpServe.Balancer.Wakeup
import LibeventHttpServe.Balancer.Delivery
import LibeventHttpServe.Balancer.Lifecycle
import LibeventHttpServe.Balancer.Lifetime
import LibeventHttpServe.Flags.Parse
import LibeventHttpServe.Shared.Address
import LibeventHttpServe.Shared.AddressText
import LibeventHttpServe.Flags.Registry
import LibeventHttpServe.Flags.Forest
import LibeventHttpServe.Flags.Refinement
import LibeventHttpServe.Flags.Execute
import LibeventHttpServe.Flags.Reading
import LibeventHttpServe.Flags.Simulation
import LibeventHttpServe.Flags.Phases
import LibeventHttpServe.Flags.Termination
import LibeventHttpServe.Flags.Selection
import LibeventHttpServe.Flags.Positionals
import LibeventHttpServe.Example.Main
import LibeventHttpServe.Example.Configuration
import LibeventHttpServe.Flags.Literal
import LibeventHttpServe.Flags.ParseInt
import LibeventHttpServe.Shared.Output
import LibeventHttpServe.Balancer.Fairness
import LibeventHttpServe.Flags.Arrays
import LibeventHttpServe.Flags.Integers
import LibeventHttpServe.Flags.Release
import LibeventHttpServe.Flags.Lookup
import LibeventHttpServe.Flags.Order
import LibeventHttpServe.Flags.BaseName
import LibeventHttpServe.Flags.Negation
import LibeventHttpServe.Shared.Slices
import LibeventHttpServe.Flags.Growth
import LibeventHttpServe.Balancer.Teardown
import LibeventHttpServe.Lib.PostOrder
import LibeventHttpServe.Flags.Tree
import LibeventHttpServe.Flags.TreeInvariant
import LibeventHttpServe.Flags.Traversal
import LibeventHttpServe.Flags.Destroy
import LibeventHttpServe.Flags.Tracks
import LibeventHttpServe.Flags.Positions
import LibeventHttpServe.Flags.Memory
import LibeventHttpServe.Flags.Observed
import LibeventHttpServe.Flags.Words
import LibeventHttpServe.Flags.Spelling
import LibeventHttpServe.Flags.Groups
import LibeventHttpServe.Flags.BareBool
import LibeventHttpServe.Balancer.Drain
import LibeventHttpServe.Flags.Printf
import LibeventHttpServe.Server.Listener
import LibeventHttpServe.Server.Program
import LibeventHttpServe.Server.Startup
import LibeventHttpServe.Server.Service
import LibeventHttpServe.Server.Shutdown
import LibeventHttpServe.Server.Progress
import LibeventHttpServe.Flags.Defaults
import LibeventHttpServe.Flags.Usage
import LibeventHttpServe.Flags.Page
import LibeventHttpServe.Flags.Console
import LibeventHttpServe.Flags.Help
import LibeventHttpServe.Flags.Buffers
import LibeventHttpServe.Flags.GivenBack
import LibeventHttpServe.Example.Exit
import LibeventHttpServe.Server.Status
